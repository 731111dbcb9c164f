import Gabs.Pbuf.Clone

/-!
# Packet buffers: the ranges that views, clones and copies accept

- `ranges_of_stops`: where `buf_seek` stops at a fragment the three deliver the same bytes;
- `view_behind`: where it goes to the end, `gabs_pbuf_view` reads a fragment that is none;
- `ranges_agree`: they accept the same ranges but for the empty one at the end, and blocks whose size is no `size_t`.

No bound is put on the size of the buffer: `gabs_pbuf_size` and the boundary of `buf_seek` may wrap.
-/

namespace Gabs.Pbuf

open Gabs.Lib

variable {ι : Type} [DecidableEq ι] {h : Heap ι} {p : Option Nat} {k n : Nat} {l : List Nat}

omit [DecidableEq ι] in
/-- What `buf_seek` leaves of a range inside the buffer. -/
theorem range_left {offset size : Nat} {l₁ l₂ : List Nat} (hle : offset + size ≤ wrap (h.total (l₁ ++ l₂)))
    (hlo : wrap (h.total l₁) ≤ offset) : offset - wrap (h.total l₁) + size ≤ h.total l₂ := by
  have hsum : wrap (h.total (l₁ ++ l₂)) ≤ wrap (h.total l₁) + h.total l₂ := by
    rw [total_append, ← wrap_add_left]
    exact wrap_le _
  omega

/-- `gabs_pbuf_view` behind the end. -/
theorem view_behind {offset : Nat} {lp : Link ι} (hseek : bufSeek h p offset = .ok (⟨none, lp⟩, k)) (size alloc : Nat) :
    gabsPbufView h p offset size alloc = .error .null := by
  simp only [gabsPbufView, hseek, bind, Except.bind, ciSize, Heap.deref]

/-- **A range that begins in a fragment** is delivered by all three. -/
theorem ranges_of_stops (hs : h.Sound) (hc : h.Chain p l) (hr : h.Readable l) {offset size : Nat}
    (hle : offset + size ≤ wrap (h.total l)) (hstop : h.Stops l offset 0) (alloc : Nat)
    (hg : ∀ k < l.length, h.grants (h.asked + k) = true) :
    ∃ b h' v m, b.length = size ∧ gabsPbufCopy h p offset size = .ok b ∧
      gabsPbufView h p offset size alloc = .ok (h', v) ∧ gabsPbufOkay v = true ∧ h'.Chain v m ∧ h'.content m = b ∧
      gabsPbufClone h p offset size alloc = if sizeofFrag + size < 2 ^ 64
        then .ok ((h.reserved size alloc).store ⟨.own h.asked, 0⟩ b, some h.asked) else .error .overrun := by
  obtain ⟨l₁, l₂, lp, rfl, hseek, hlo, hhi, hend⟩ :=
    seekLoop_stops hc (Nat.zero_le offset) (by decide) (.param : Link ι)
  rw [Nat.zero_add] at hseek hlo hhi
  cases l₂ with
  | nil => exact absurd rfl (hend.mpr hstop)
  | cons f t =>
    have hinside := range_left hle hlo
    have hokay : gabsPbufOkay p = true := hc.okay (f := f) (by simp)
    have hbehind : h.Chain (some f) (f :: t) := hc.behind
    have hread : h.Readable (f :: t) := fun c hcl => hr c (List.mem_append_right _ hcl)
    have hlen : (l₁ ++ f :: t).length = l₁.length + (f :: t).length := List.length_append
    have hsize : size < 2 ^ 64 := Nat.lt_of_le_of_lt (Nat.le_trans (Nat.le_add_left _ _) hle) (wrap_lt _)
    have hb : (((h.content (f :: t)).drop (offset - wrap (h.total l₁))).take size).length = size := by
      rw [List.length_take, List.length_drop, content_length hbehind.live]
      omega
    -- The copy from `h`, and the one that the clone makes.
    have hcopy := copy_from hs (hseek h.fuel (hc.length_lt hs)) hokay hbehind hlo (hhi f rfl)
      (hread.touchable fun _ => False) size
    obtain ⟨hc', -, -⟩ := reserved_chain hs hc size alloc
    obtain ⟨hbehind', -, hcontent'⟩ := reserved_chain hs hbehind size alloc
    have hsame : ∀ c ∈ l₁ ++ f :: t, (h.reserved size alloc).frags c = h.frags c := fun c hcl =>
      reserved_frags_of_ne (hc.ne_asked hs hcl) size alloc
    have hseek' : bufSeek (h.reserved size alloc) p offset = .ok (⟨some f, lp⟩, wrap (h.total l₁)) :=
      (seekLoop_congr hc hsame offset _ _ 0).trans (hseek _ (Nat.lt_succ_of_lt (hc.length_lt hs)))
    have hclone := copy_from (hs.reserved size alloc) hseek' hokay hbehind' hlo
      (by rw [size_congr (hsame f (by simp))]; exact hhi f rfl)
      ((hread.reserved hs hbehind size alloc).touchable fun _ => False) size
    rw [hcontent'] at hclone
    obtain ⟨h', v, m, hview, hv, hm, haddrs, -, -, hbytes, -⟩ :=
      view_from hs (hseek h.fuel (hc.length_lt hs)) hbehind hlo
      (hhi f rfl) hinside alloc fun k hk => hg k (by omega)
    refine ⟨_, h', v, m, hb, ?_, hview, hv, hm, ?_,
      gabsPbufClone_of (hg 0 (List.length_pos_of_mem (a := f) (by simp))) hsize ?_ hb⟩
    · cases hrun : gabsPbufCopy h p offset size with
      | error e => exact (hcopy.error_ok hrun).elim
      | ok b => rw [hcopy.of_ok hrun]
    · rw [Heap.content, haddrs, Heap.content, ← List.map_drop, ← List.map_take]
      exact List.map_congr_left fun q _ => by rw [Heap.byte, hbytes, Heap.byte]
    · cases hrun : gabsPbufCopy (h.reserved size alloc) p offset size with
      | error e => exact (hclone.error_ok hrun).elim
      | ok b => rw [hclone.of_ok hrun]

omit [DecidableEq ι] in
/-- Where `buf_seek` stops, for a buffer that has a fragment. -/
theorem stops_iff (hl : l ≠ []) (offset : Nat) :
    h.Stops l offset 0 ↔ offset = 0 ∨ ∃ l₁ l₂, l = l₁ ++ l₂ ∧ offset < wrap (h.total l₁) := by
  constructor
  · rintro (⟨-, rfl⟩ | ⟨l₁, l₂, hl₁, -, hlt⟩)
    · exact .inl rfl
    · rw [Nat.zero_add] at hlt
      exact .inr ⟨l₁, l₂, hl₁, hlt⟩
  · rintro (rfl | ⟨l₁, l₂, hl₁, hlt⟩)
    · exact .inl ⟨hl, rfl⟩
    · refine .inr ⟨l₁, l₂, hl₁, ?_, by rwa [Nat.zero_add]⟩
      rintro rfl
      exact absurd hlt (Nat.not_lt_zero _)

/-- **View, clone and copy accept the same ranges and agree**, exactly when the range does not begin at the end of the
buffer, and the size of the block of the clone fits into a `size_t`. -/
theorem ranges_agree (hs : h.Sound) (hc : h.Chain p l) (hr : h.Readable l) (hp : gabsPbufOkay p = true)
    {offset size : Nat} (hn : gabsPbufSize h p = .ok n) (hle : offset + size ≤ n) (alloc : Nat)
    (hg : ∀ k < l.length, h.grants (h.asked + k) = true) :
    (∃ hv v mv hw w mw b, gabsPbufView h p offset size alloc = .ok (hv, v) ∧ gabsPbufOkay v = true ∧ hv.Chain v mv ∧
      gabsPbufClone h p offset size alloc = .ok (hw, w) ∧ gabsPbufOkay w = true ∧ hw.Chain w mw ∧
      gabsPbufCopy h p offset size = .ok b ∧ hv.content mv = b ∧ hw.content mw = b) ↔
    sizeofFrag + size < 2 ^ 64 ∧ (offset = 0 ∨ ∃ l₁ l₂, l = l₁ ++ l₂ ∧ offset < wrap (h.total l₁)) := by
  obtain rfl : wrap (h.total l) = n := by
    rw [gabsPbufSize_wrap hs hc] at hn
    exact Except.ok.inj hn
  have hl : l ≠ [] := by
    rintro rfl
    rw [hc.head] at hp
    cases hp
  rw [← stops_iff hl]
  by_cases hstop : h.Stops l offset 0
  · obtain ⟨b, hv, v, mv, hb, hcopy, hview, hvo, hmv, hcontent, hclone⟩ := ranges_of_stops hs hc hr hle hstop alloc hg
    by_cases hover : sizeofFrag + size < 2 ^ 64
    · rw [if_pos hover] at hclone
      have hcloned := cloned_of (b := b) h alloc (by rw [hb]; exact hover)
      rw [hb] at hcloned
      exact iff_of_true ⟨hv, v, mv, _, _, _, b, hview, hvo, hmv, hclone, rfl, hcloned.chain, hcopy, hcontent,
        hcloned.content⟩ ⟨hover, hstop⟩
    · rw [if_neg hover] at hclone
      refine iff_of_false ?_ fun hcond => hover hcond.1
      rintro ⟨-, -, -, hw, w, -, -, -, -, -, hrun, -⟩
      rw [hclone] at hrun
      cases hrun
  · obtain ⟨l₁, l₂, lp, rfl, hseek, -, -, hend⟩ := seekLoop_stops hc (Nat.zero_le offset) (by decide) (.param : Link ι)
    obtain rfl : l₂ = [] := by
      by_contra hne
      exact hstop (hend.mp hne)
    have hview := view_behind (hseek h.fuel (hc.length_lt hs)) size alloc
    refine iff_of_false ?_ fun hcond => hstop hcond.2
    rintro ⟨hv, v, -, -, -, -, -, hrun, -⟩
    rw [hview] at hrun
    cases hrun

/-- Three bytes from the middle of a buffer. -/
theorem ranges_agree_middle :
    (∃ hv v mv hw w mw b, gabsPbufView sevenBytes (some 0) 2 3 0 = .ok (hv, v) ∧ gabsPbufOkay v = true ∧
      hv.Chain v mv ∧ gabsPbufClone sevenBytes (some 0) 2 3 0 = .ok (hw, w) ∧ gabsPbufOkay w = true ∧ hw.Chain w mw ∧
      gabsPbufCopy sevenBytes (some 0) 2 3 = .ok b ∧ hv.content mv = b ∧ hw.content mw = b) ↔
    sizeofFrag + 3 < 2 ^ 64 ∧ (2 = 0 ∨ ∃ l₁ l₂, [0, 1, 2] = l₁ ++ l₂ ∧ 2 < wrap (sevenBytes.total l₁)) := by
  refine ranges_agree (heapOf_sound _ _) sevenBytes_chain (fun f hf x hx => ?_) rfl (n := 7) (by decide) (by decide) 0
    fun _ _ => rfl
  obtain rfl | rfl | rfl : f = 0 ∨ f = 1 ∨ f = 2 := by simpa using hf
  · cases hx
    rfl
  · cases hx
    rfl
  · cases hx
    rfl

/-- **The empty range at the end**: it can be copied and cloned, but `gabs_pbuf_view` reads a fragment that is none. -/
theorem view_at_end : gabsPbufSize sevenBytes (some 0) = .ok 7 ∧ 7 + 0 ≤ 7 ∧
    gabsPbufCopy sevenBytes (some 0) 7 0 = .ok [] ∧
    (∃ h' v, gabsPbufClone sevenBytes (some 0) 7 0 0 = .ok (h', v) ∧ gabsPbufOkay v = true) ∧
    gabsPbufView sevenBytes (some 0) 7 0 0 = .error .null := by
  refine ⟨by decide, by decide, by decide, ⟨_, _, rfl, rfl⟩, rfl⟩

end Gabs.Pbuf
