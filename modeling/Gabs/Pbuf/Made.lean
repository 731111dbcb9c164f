import Gabs.Pbuf.Copy
import Gabs.Pbuf.Put

/-!
# Packet buffers: making and chaining buffers

What the calls that make a buffer, and those that chain buffers, leave alone (`Kept`), and that their assertions pass:
those of `gabs_pbuf_clone` for a range inside the buffer, that of `gabs_pbuf_chain_at` at a boundary of fragments, and
those behind an allocation when it succeeds.
-/

namespace Gabs.Pbuf

open Gabs.Lib

variable {ι : Type} {S : Prop} {h₀ h : Heap ι} {N : Nat} {A : Ptr → Prop} {i : ι} {p v : Option Nat} {f n : Nat}
  {x : Frag} {it : Ci ι} {l l₁ l₂ : List Nat}

/-! ## New fragments -/

/-- A new fragment of `gabs_pbuf_new`. -/
def Frag.blank (f size alloc : Nat) : Frag := ⟨⟨.own f, 0⟩, ⟨.own f, 0⟩, 0, size, false, 1, none, alloc⟩

/-- The heap after an allocation of `n` bytes has failed. -/
def Heap.refused (h : Heap ι) (n : Nat) : Heap ι :=
  { h with asked := h.asked + 1, requests := Function.update h.requests h.asked n }

theorem fits_blank (f alloc : Nat) {size : Nat} (hs : size < 2 ^ 64) : (Frag.blank f size alloc).Fits :=
  ⟨rfl, Nat.le_refl _, by simp [Frag.blank], hs⟩

theorem fits_over (q : Ptr) {size : Nat} (hs : size < 2 ^ 64) (alloc : Nat) : (Frag.over q size alloc).Fits :=
  ⟨rfl, Nat.le_refl _, by simp [Frag.over], hs⟩

theorem assert_upto {ok : Fault → Prop} (hok : ok .assertion) (h : Heap ι) (b : Bool) :
    Upto ok (h.assert b) fun _ => True := by
  rw [Heap.assert]
  exact upto_ite (fun _ => trivial) fun _ => hok

/-- `gabs_pbuf_new`. -/
theorem new_upto {ok : Fault → Prop} (hok : ¬ h.grants h.asked = true → ok .assertion) (alloc size : Nat) :
    Upto ok (gabsPbufNew h alloc size) fun r => if h.grants h.asked = true
      then r = (h.fresh (wrap (sizeofFrag + size)) (.blank h.asked size alloc), some h.asked)
      else r = (h.refused (wrap (sizeofFrag + size)), none) := by
  refine upto_ite (fun (hyes : h.grants h.asked = true) => ?_) fun (hno : ¬ h.grants h.asked = true) => ?_
  · exact upto_ok.mpr (by rw [if_pos hyes]; rfl)
  · refine (assert_upto (hok hno) _ false).bind fun _ _ => ?_
    exact upto_ok.mpr (by rw [if_neg hno]; rfl)

/-- `gabs_pbuf_new_ro`. -/
theorem newRo_upto {ok : Fault → Prop} (hok : ¬ h.grants h.asked = true → ok .assertion) (alloc : Nat) (data : Ptr)
    (size : Nat) : Upto ok (gabsPbufNewRo h alloc data size) fun r => if h.grants h.asked = true
      then r = (h.fresh sizeofFrag (.over data size alloc), some h.asked) else r = (h.refused sizeofFrag, none) := by
  by_cases hyes : h.grants h.asked = true
  · rw [newRo_eq hyes]
    exact upto_ok.mpr (by rw [if_pos hyes])
  · refine (new_upto hok alloc 0).bind fun r hr => ?_
    rw [if_neg hyes] at hr
    subst hr
    exact (assert_upto (hok hyes) _ false).bind fun _ _ => upto_ok.mpr (by rw [if_neg hyes]; rfl)

theorem new_passes (hg : S → h.grants h.asked = true) (alloc size : Nat) :
    Passes S (gabsPbufNew h alloc size) fun r => if h.grants h.asked = true
      then r = (h.fresh (wrap (sizeofFrag + size)) (.blank h.asked size alloc), some h.asked)
      else r = (h.refused (wrap (sizeofFrag + size)), none) :=
  new_upto (fun hno _ hs => hno (hg hs)) alloc size

theorem newRo_passes (hg : S → h.grants h.asked = true) (alloc : Nat) (data : Ptr) (size : Nat) :
    Passes S (gabsPbufNewRo h alloc data size) fun r => if h.grants h.asked = true
      then r = (h.fresh sizeofFrag (.over data size alloc), some h.asked) else r = (h.refused sizeofFrag, none) :=
  newRo_upto (fun hno _ hs => hno (hg hs)) alloc data size

/-! ## What is kept -/

theorem Kept.fresh (hk : Kept S h₀ N A h) (hx : x.Fits) (hb : S → x.base.block ≠ .null) (hnext : x.next = none)
    (ho : ∀ g, x.base.block = .own g → g ≤ h.asked) (hp : x.readonly = false → x.base.block = .own h.asked) (n : Nat) :
    Kept S h₀ N A (h.fresh n x) := by
  have hold : ∀ g y, g ≠ h.asked → (h.fresh n x).frags g = some y → h.frags g = some y := fun g y hg hy => by
    rwa [fresh_frags_of_ne hg] at hy
  have hnew : ∀ y, (h.fresh n x).frags h.asked = some y → y = x := fun y hy => by
    rw [fresh_frags_self] at hy
    exact (Option.some.inj hy).symm
  refine ⟨fun g y hy => ?_, fun hs g y hy => ?_, Nat.le_succ_of_le hk.asked, fun g hg => ?_, fun g y c hg hy hc => ?_,
    fun g y c hy hc => ?_, fun g y hg hy hro => ?_, hk.own, hk.mem, hk.grants⟩
  · by_cases e : g = h.asked
    · subst e
      exact ⟨Nat.lt_succ_self _, by rw [hnew y hy]; exact hx⟩
    · have hy' := hold g y e hy
      exact ⟨Nat.lt_succ_of_lt (hk.fits.sound g y hy'), hk.fits.frag hy'⟩
  · by_cases e : g = h.asked
    · subst e
      rw [hnew y hy]
      exact hb hs
    · exact hk.based hs g y (hold g y e hy)
  · rw [fresh_frags_of_ne (Nat.ne_of_lt (Nat.lt_of_lt_of_le hg hk.asked)), hk.below g hg]
  · by_cases e : g = h.asked
    · subst e
      rw [hnew y hy, hnext] at hc
      cases hc
    · exact hk.above g y c hg (hold g y e hy) hc
  · by_cases e : g = h.asked
    · subst e
      rw [hnew y hy] at hc
      exact Nat.lt_succ_of_le (ho c hc)
    · exact Nat.lt_succ_of_lt (hk.known g y c (hold g y e hy) hc)
  · by_cases e : g = h.asked
    · subst e
      rw [hnew y hy] at hro ⊢
      exact hp hro
    · exact hk.plain g y hg (hold g y e hy) hro

theorem Kept.refused (hk : Kept S h₀ N A h) (n : Nat) : Kept S h₀ N A (h.refused n) :=
  ⟨fun g y hy => ⟨Nat.lt_succ_of_lt (hk.fits.sound g y hy), hk.fits.frag hy⟩, hk.based, Nat.le_succ_of_le hk.asked,
    hk.below, hk.above, fun g y c hy hc => Nat.lt_succ_of_lt (hk.known g y c hy hc), hk.plain, hk.own,
    hk.mem, hk.grants⟩

/-- The fragment that is made next is a new one. -/
theorem Kept.above_asked (hk : Kept S h₀ N A h) : Above N (some h.asked) := by
  intro f hf
  cases hf
  exact hk.asked

theorem Kept.blank (hk : Kept S h₀ N A h) (alloc : Nat) {size : Nat} (hs : size < 2 ^ 64) (n : Nat) :
    Kept S h₀ N A (h.fresh n (.blank h.asked size alloc)) := by
  refine hk.fresh (fits_blank _ alloc hs) (fun _ => nofun) rfl (fun g hg => ?_) (fun _ => rfl) n
  cases hg
  exact Nat.le_refl _

theorem gabsPbufNew_kept (hk : Kept S h₀ N A h) (hg : S → h.grants h.asked = true) (alloc : Nat) {size : Nat}
    (hs : size < 2 ^ 64) : Passes S (gabsPbufNew h alloc size) fun r => Kept S h₀ N A r.1 ∧ Above N r.2 := by
  refine (new_passes hg alloc size).mono fun r hr => ?_
  split at hr
  · subst hr
    exact ⟨hk.blank alloc hs _, hk.above_asked⟩
  · subst hr
    exact ⟨hk.refused _, above_none N⟩

theorem gabsPbufNewRo_kept (hk : Kept S h₀ N A h) (hg : S → h.grants h.asked = true) (alloc : Nat) {data : Ptr}
    {size : Nat} (hb : S → data.block ≠ .null) (ho : ∀ g, data.block = .own g → g < h.asked) (hs : size < 2 ^ 64) :
    Passes S (gabsPbufNewRo h alloc data size) fun r => Kept S h₀ N A r.1 ∧ Above N r.2 := by
  refine (newRo_passes hg alloc data size).mono fun r hr => ?_
  split at hr
  · subst hr
    exact ⟨hk.fresh (fits_over _ hs alloc) hb rfl (fun g hg => Nat.le_of_lt (ho g hg)) nofun _, hk.above_asked⟩
  · subst hr
    exact ⟨hk.refused _, above_none N⟩

/-! ## Views -/

/-- The address of a fragment is that of its block. -/
theorem Kept.data_based (hk : Kept S h₀ N A h) (hs : S) (hx : h.frags f = some x) : x.data.block ≠ .null := by
  rw [(hk.fits.frag hx).block]
  exact hk.based hs f x hx

/-- The block of a fragment has been allocated. -/
theorem Kept.data_known (hk : Kept S h₀ N A h) (hx : h.frags f = some x) {g : Nat} (hb : x.data.block = .own g) :
    g < h.asked := by
  rw [(hk.fits.frag hx).block] at hb
  exact hk.known f x g hx hb

variable [DecidableEq ι]

/-- **The loop of `gabs_pbuf_view`.** -/
theorem viewLoop_kept (hk : Kept S h₀ N A h) (hg : S → ∀ k, h₀.grants k = true) (alloc n : Nat) (it : Ci ι) {ins : Ci ι}
    (hi : Above N ins.cur) (size : Nat) : Passes S (viewLoop alloc n h it ins size) (Kept S h₀ N A) := by
  induction n generalizing h it ins size with
  | zero => rintro ⟨⟩
  | succ n ih =>
    have hg' : S → h.grants h.asked = true := fun hs => by rw [hk.grants]; exact hg hs _
    rw [viewLoop]
    refine upto_ite (fun _ => hk) fun _ => (ciNext_passes h it).bind fun it' _ => ?_
    refine (ciSize_passes h it').bind fun s hs => ?_
    obtain ⟨f, x, hcur, hx, rfl⟩ := hs
    refine (ciData_passes h it').bind fun q hq => ?_
    obtain ⟨g, y, hcur', hy, rfl⟩ := hq
    have hsize : min x.size size < 2 ^ 64 := Nat.lt_of_le_of_lt (Nat.min_le_left _ _) (hk.fits.frag hx).size_lt
    refine (newRo_passes hg' alloc y.data (min x.size size)).bind fun r hr => ?_
    split at hr
    · subst hr
      have hk' := hk.fresh (fits_over y.data hsize alloc) (fun hs => hk.data_based hs hy) rfl
        (fun g hg => Nat.le_of_lt (hk.data_known hy hg)) (by rintro ⟨⟩) sizeofFrag
      refine (ciNext_kept hk' hi).bind fun ins' habove => ?_
      obtain ⟨hc, hl⟩ := habove
      exact (ciInsert_kept hk' hc hl hk.above_asked).bind fun r hr => ih hr.1 _ hr.2.1 _
    · subst hr
      rename_i hno
      exact (assert_passes _ fun hs => absurd (hg' hs) hno).bind fun _ _ => hk.refused sizeofFrag

theorem sub_lt {a b : Nat} (ha : a < 2 ^ 64) : sub a b < 2 ^ 64 := by
  unfold sub
  split <;> omega

/-- **`gabs_pbuf_view`.** -/
theorem gabsPbufView_kept (hk : Kept S h₀ N A h) (hg : S → ∀ k, h₀.grants k = true) (p : Option Nat)
    (offset size alloc : Nat) :
    Passes S (gabsPbufView h p offset size alloc) fun r => Kept S h₀ N A r.1 ∧ Above N r.2 := by
  refine (seekLoop_passes h offset h.fuel _ 0).bind fun r _ => ?_
  obtain ⟨it, boundary⟩ := r
  refine (ciSize_passes h it).bind fun s hs => ?_
  obtain ⟨f, x, -, hx, rfl⟩ := hs
  refine (ciData_passes h it).bind fun q hq => ?_
  obtain ⟨g, y, -, hy, rfl⟩ := hq
  have hsize : min (sub x.size (sub offset boundary)) size < 2 ^ 64 :=
    Nat.lt_of_le_of_lt (Nat.min_le_left _ _) (sub_lt (hk.fits.frag hx).size_lt)
  have hbased : S → (y.data.add (sub offset boundary)).block ≠ .null := fun hs => hk.data_based hs hy
  refine (gabsPbufNewRo_kept hk (fun hs => by rw [hk.grants]; exact hg hs _) alloc hbased
    (fun g hg => hk.data_known hy hg) hsize).bind fun r ⟨hk', hr⟩ => ?_
  obtain ⟨h', view⟩ := r
  refine upto_ite (fun _ => ⟨hk', hr⟩) fun _ => ?_
  exact (viewLoop_kept hk' hg alloc _ _ hr _).bind fun h'' hk'' => ⟨hk'', hr⟩

/-! ## Clones -/

omit [DecidableEq ι]

theorem touchable_passes (h : Heap ι) (l : List Nat) : h.Touchable (fun x => x = Fault.assertion → ¬ S) l :=
  fun _ _ _ _ _ _ _ => touch_passes ..

/-- Without the condition every failure is tolerated. -/
theorem passes_of_not {α : Type} (hs : ¬ S) (e : Except Fault α) : Passes S e fun _ => True := by
  cases e with
  | ok a => exact trivial
  | error x => exact fun _ => hs

/-- Chains that are there stay when a new fragment gets bytes. -/
theorem Heap.Chain.put_fresh (hs : h.Sound) (hc : h.Chain p l) (n : Nat) (x y : Frag) :
    ((h.fresh n x).put h.asked y).Chain p l ∧ ∀ f ∈ l, ((h.fresh n x).put h.asked y).frags f = h.frags f := by
  have hsame : ∀ f ∈ l, ((h.fresh n x).put h.asked y).frags f = h.frags f := fun f hf => by
    have hne := hc.ne_asked hs hf
    rw [put_frags, Function.update_of_ne hne, fresh_frags_of_ne hne]
  exact ⟨hc.congr (fun f hf => by rw [Heap.next, hsame f hf, Heap.next]) fun f hf => by
    rw [hsame f hf]; exact hc.live f hf, hsame⟩

/-- A new fragment with all its bytes reserved. -/
def Frag.filled (f size alloc : Nat) : Frag := { Frag.blank f size alloc with size := size }

theorem fits_filled (f alloc : Nat) {size : Nat} (hs : size < 2 ^ 64) : (Frag.filled f size alloc).Fits :=
  ⟨rfl, Nat.le_refl _, by simp [Frag.filled, Frag.blank], hs⟩

/-- The reservation of `gabs_pbuf_clone`. -/
theorem reserve_blank (alloc : Nat) {size : Nat} (hs : size < 2 ^ 64) (hx : h.frags f = some (.blank f size alloc)) :
    ciReserveTail h (ciInit h (.param (some f))) size = .ok (h.put f (.filled f size alloc), ⟨.own f, 0⟩) := by
  have hroom : size ≤ (Frag.blank f size alloc).tailroom := by
    have htail := (fits_blank f alloc hs).tailroom
    rw [(fits_blank f alloc hs).headroom] at htail
    simp only [Frag.blank] at htail ⊢
    omega
  have hres : ciReserveTail h ⟨some f, .param⟩ size = _ := ciReserveTail_of (fits_blank f alloc hs) hx hroom
  rw [ciInit, hres, Frag.filled]
  simp [Frag.blank, Ptr.add]

/-- **`gabs_pbuf_clone`.** -/
theorem gabsPbufClone_kept (hk : Kept S h₀ N A h) (hg : S → ∀ k, h₀.grants k = true)
    (hA : ∀ q f, A q → q.block = .own f → f < N) {offset size : Nat} (hs : size < 2 ^ 64)
    (hc : S → ∃ l, h.Chain p l ∧ h.total l < 2 ^ 64 ∧ offset + size ≤ h.total l) (alloc : Nat) :
    Passes S (gabsPbufClone h p offset size alloc) fun r => Kept S h₀ N A r.1 ∧ Above N r.2 := by
  have hg' : S → h.grants h.asked = true := fun hs => by rw [hk.grants]; exact hg hs _
  refine (new_passes hg' alloc size).bind fun r hr => ?_
  split at hr
  · subst hr
    set h₁ := h.fresh (wrap (sizeofFrag + size)) (.blank h.asked size alloc) with hh₁
    have hx₁ : h₁.frags h.asked = some (.blank h.asked size alloc) := fresh_frags_self ..
    have hk₁ : Kept S h₀ N A h₁ := hk.blank alloc hs _
    have hk₂ : Kept S h₀ N A (h₁.put h.asked (.filled h.asked size alloc)) :=
      hk₁.put hk.asked hx₁ (fits_filled _ alloc hs) rfl rfl (above_none N)
    have hcopy : Passes S (gabsPbufCopy (h₁.put h.asked (.filled h.asked size alloc)) p offset size) fun b =>
        S → b.length = size := by
      by_cases hS : S
      · obtain ⟨l, hl, ht, hle⟩ := hc hS
        obtain ⟨hl₂, hsame⟩ := hl.put_fresh hk.fits.sound (wrap (sizeofFrag + size)) (.blank h.asked size alloc)
          (.filled h.asked size alloc)
        have ht₂ := total_congr hsame
        refine (gabsPbufCopy_upto hk₂.fits.sound hl₂ (by rw [ht₂]; exact ht) (touchable_passes _ l) offset size).mono ?_
        intro b hb _
        rw [hb, List.length_take, List.length_drop, Heap.content, List.length_map, length_addrs hl₂.live, ht₂]
        omega
      · exact (passes_of_not hS _).mono fun b _ h => absurd h hS
    have hres := reserve_blank alloc hs hx₁
    simp only [gabsPbufOkay, Option.isSome_some, Bool.not_true, Bool.false_eq_true, if_false, hres, bind, Except.bind]
    refine hcopy.bind fun b hb => (touch_passes _ _ _).bind fun _ _ => ?_
    refine (assert_passes _ fun hS => decide_eq_true (hb hS)).bind fun _ _ => ⟨?_, hk.above_asked⟩
    refine { hk₂ with mem := fun q hq => ?_ }
    rw [← hk₂.mem q hq]
    refine store_byte_of_notMem fun hin => ?_
    exact absurd (hA q h.asked hq hin.1) (Nat.not_lt_of_le hk.asked)
  · subst hr
    exact ⟨hk.refused _, above_none N⟩

/-! ## Chaining -/

theorem backLoop_kept (hk : Kept S h₀ N A h) (n : Nat) (hc : Above N it.cur) (hl : it.lastp.Above N) :
    Passes S (backLoop h n it) fun it' => Above N it'.cur ∧ it'.lastp.Above N := by
  induction n generalizing it with
  | zero => rintro ⟨⟩
  | succ n ih =>
    rw [backLoop]
    exact upto_ite (fun _ => ⟨hc, hl⟩) fun _ => (ciNext_kept hk hc).bind fun it' habove => ih habove.1 habove.2

theorem atLoop_kept (hk : Kept S h₀ N A h) (offset n : Nat) (hc : Above N it.cur) (hl : it.lastp.Above N)
    (bytes : Nat) : Passes S (atLoop h offset n it bytes) fun r => Above N r.1.cur ∧ r.1.lastp.Above N := by
  induction n generalizing it bytes with
  | zero => rintro ⟨⟩
  | succ n ih =>
    rw [atLoop]
    refine upto_ite (fun _ => ⟨hc, hl⟩) fun _ => (ciSize_passes h it).bind fun s _ => ?_
    exact upto_ite (fun _ => ⟨hc, hl⟩) fun _ => (ciNext_kept hk hc).bind fun it' habove => ih habove.1 habove.2 _

variable [DecidableEq ι]

theorem gabsPbufChainFront_kept (hk : Kept S h₀ N A h) (i : ι) (hi : Above N (h.slots i)) (hp : Above N p) :
    Passes S (gabsPbufChainFront h i p) (Kept S h₀ N A) :=
  (ciInsert_kept hk (show Above N (ciInit h (.slot i)).cur from hi) nofun hp).bind fun _ hr => hr.1

theorem gabsPbufChainBack_kept (hk : Kept S h₀ N A h) (i : ι) (hi : Above N (h.slots i)) (hp : Above N p) :
    Passes S (gabsPbufChainBack h i p) (Kept S h₀ N A) :=
  (backLoop_kept hk h.fuel (show Above N (ciInit h (.slot i)).cur from hi) nofun).bind fun _ ⟨hc, hl⟩ =>
    (ciInsert_kept hk hc hl hp).bind fun _ hr => hr.1

/-- **`gabs_pbuf_chain_at`**, at a boundary of fragments. -/
theorem gabsPbufChainAt_kept (hk : Kept S h₀ N A h) (i : ι) (hi : Above N (h.slots i)) (hp : Above N p) {offset : Nat}
    (hc : S → ∃ l₁ l₂, h.Chain (h.slots i) (l₁ ++ l₂) ∧ h.total (l₁ ++ l₂) < 2 ^ 64 ∧ offset = h.total l₁) :
    Passes S (gabsPbufChainAt h i p offset) (Kept S h₀ N A) := by
  refine upto_ite (fun _ => gabsPbufChainFront_kept hk i hi hp) fun _ => ?_
  have hat : Passes S (atLoop h offset h.fuel (ciInit h (.slot i)) 0) fun r => S → r.2 = offset := by
    by_cases hS : S
    · obtain ⟨l₁, l₂, hl, ht, rfl⟩ := hc hS
      obtain ⟨a, b, it, k, hab, hloop, -, hstop⟩ :=
        atLoop_eq (ciInit_at hl) (hl.length_lt hk.fits.sound) (h.total l₁) 0
      obtain ⟨rfl, hle, hlast⟩ := hstop (Nat.zero_le _) (by omega)
      rw [Nat.zero_add] at hle hlast hloop
      rw [hloop]
      exact fun _ => total_boundary hab.symm hle hlast
    · exact (passes_of_not hS _).mono fun r _ h => absurd h hS
  have hloop := atLoop_kept hk offset h.fuel (show Above N (ciInit h (.slot i)).cur from hi) nofun 0
  refine (hloop.and hat).bind fun r h => ?_
  obtain ⟨it, bytes⟩ := r
  obtain ⟨⟨hc, hl⟩, hr⟩ := h
  exact (assert_passes h fun hS => decide_eq_true (hr hS)).bind fun _ _ =>
    (ciInsert_kept hk hc hl hp).bind fun _ hr => hr.1

end Gabs.Pbuf
