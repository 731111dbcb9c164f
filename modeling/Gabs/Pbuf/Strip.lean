import Gabs.Pbuf.Fits
import Gabs.Pbuf.Seek
import Gabs.Pbuf.Shrink

/-!
# Packet buffers: stripping

- `stripHead_slice`, `stripTail_slice`: what a strip leaves, also one that is longer than the buffer;
- `strips_commute`: the order of two strips matters exactly when they overlap without the first one taking everything;
- `keep_all`: nothing is cut off a buffer whose last fragment has bytes;
- `strip_head_frames`: a strip of the head leaves the tail alone exactly for such buffers.
-/

namespace Gabs.Pbuf

open Gabs.Lib

variable {ι : Type} [DecidableEq ι] {h : Heap ι} {i : ι} {f n : Nat} {x : Frag} {l : List Nat} {it : Ci ι}

/-! ## Two strips -/

/-- The length left by a strip: too long a one makes it wrap. -/
theorem sub_wraps {n k : Nat} (hn : n < 2 ^ 64) (hk : k < 2 ^ 64) (hlt : n < k) : n < sub n k := by
  rw [sub, if_neg (Nat.not_le_of_lt hlt)]
  omega

/-- What a strip leaves of the buffer in slot `i`. -/
structure Stripped (h h' : Heap ι) (i : ι) (b : List UInt8) : Prop where
  sound : h'.Sound
  counted : h'.Counted
  holds : ∃ l, h'.Chain (h'.slots i) l ∧ h'.content l = b

/-- A shrink of a buffer. -/
theorem shrink_stripped (hs : h.Sound) (hn : h.Counted) (hc : h.Chain (h.slots i) l) (ht : h.total l < 2 ^ 64)
    (offset size : Nat) : ∃ h', gabsPbufShrink h i offset size = .ok h' ∧
      Stripped h h' i (((h.content l).drop offset).take size) := by
  obtain ⟨h', front, kept, back, hrun, -, hS, haddrs⟩ := shrink_shrunk hs hn hc ht offset size
  exact ⟨h', hrun, hS.sound, hS.counted, kept, hS.chain, hS.content haddrs⟩

/-- **`gabs_pbuf_strip_head`** drops bytes, up to all of them. -/
theorem stripHead_slice (hs : h.Sound) (hn : h.Counted) (hc : h.Chain (h.slots i) l) (ht : h.total l < 2 ^ 64) {a : Nat}
    (ha : a < 2 ^ 64) : ∃ h', gabsPbufStripHead h i a = .ok h' ∧ Stripped h h' i ((h.content l).drop a) := by
  obtain ⟨h', hrun, hS⟩ := shrink_stripped hs hn hc ht a (sub (h.total l) a)
  have hstrip : gabsPbufStripHead h i a = gabsPbufShrink h i a (sub (h.total l) a) := by
    simp only [gabsPbufStripHead, gabsPbufSize_eq hs hc ht, bind, Except.bind]
  have hall : ((h.content l).drop a).take (sub (h.total l) a) = (h.content l).drop a := by
    refine List.take_of_length_le ?_
    rw [List.length_drop, content_length hc.live]
    rcases Nat.lt_or_ge (h.total l) a with hlt | hge
    · have := sub_wraps ht ha hlt
      omega
    · exact Nat.le_of_eq (sub_of_le hge).symm
  rw [hall] at hS
  exact ⟨h', hstrip.trans hrun, hS⟩

/-- **`gabs_pbuf_strip_tail`** drops bytes from the end, but none when there are not enough. -/
theorem stripTail_slice (hs : h.Sound) (hn : h.Counted) (hc : h.Chain (h.slots i) l) (ht : h.total l < 2 ^ 64) {b : Nat}
    (hb : b < 2 ^ 64) : ∃ h', gabsPbufStripTail h i b = .ok h' ∧
      Stripped h h' i (if b ≤ h.total l then (h.content l).take (h.total l - b) else h.content l) := by
  obtain ⟨h', hrun, hS⟩ := shrink_stripped hs hn hc ht 0 (sub (h.total l) b)
  have hstrip : gabsPbufStripTail h i b = gabsPbufShrink h i 0 (sub (h.total l) b) := by
    simp only [gabsPbufStripTail, gabsPbufSize_eq hs hc ht, bind, Except.bind]
  refine ⟨h', hstrip.trans hrun, ?_⟩
  rw [List.drop_zero] at hS
  split
  · rename_i hle
    rwa [sub_of_le hle] at hS
  · rename_i hlt
    have hwraps := sub_wraps ht hb (Nat.lt_of_not_le hlt)
    rwa [List.take_of_length_le (by rw [content_length hc.live]; exact Nat.le_of_lt hwraps)] at hS

/-- What two strips leave, the head first. -/
theorem head_then_tail (hs : h.Sound) (hn : h.Counted) (hc : h.Chain (h.slots i) l)
    (ht : h.total l < 2 ^ 64) {a b : Nat} (ha : a < 2 ^ 64) (hb : b < 2 ^ 64) :
    ∃ h' l', (gabsPbufStripHead h i a >>= (gabsPbufStripTail · i b)) = .ok h' ∧
      h'.Chain (h'.slots i) l' ∧ h'.content l' = if b ≤ h.total l - a
        then ((h.content l).drop a).take (h.total l - a - b) else (h.content l).drop a := by
  obtain ⟨h₁, hrun, hs₁, hn₁, l₁, hc₁, hcontent⟩ := stripHead_slice hs hn hc ht ha
  have ht₁ : h₁.total l₁ = h.total l - a := by
    rw [← content_length hc₁.live, hcontent, List.length_drop, content_length hc.live]
  obtain ⟨h', hrun', -, -, l', hc', hcontent'⟩ := stripTail_slice hs₁ hn₁ hc₁ (by omega) hb
  rw [ht₁, hcontent] at hcontent'
  exact ⟨h', l', by rw [hrun]; exact hrun', hc', hcontent'⟩

/-- What two strips leave, the tail first. -/
theorem tail_then_head (hs : h.Sound) (hn : h.Counted) (hc : h.Chain (h.slots i) l)
    (ht : h.total l < 2 ^ 64) {a b : Nat} (ha : a < 2 ^ 64) (hb : b < 2 ^ 64) :
    ∃ h' l', (gabsPbufStripTail h i b >>= (gabsPbufStripHead · i a)) = .ok h' ∧
      h'.Chain (h'.slots i) l' ∧ h'.content l' =
        (if b ≤ h.total l then (h.content l).take (h.total l - b) else h.content l).drop a := by
  obtain ⟨h₁, hrun, hs₁, hn₁, l₁, hc₁, hcontent⟩ := stripTail_slice hs hn hc ht hb
  have ht₁ : h₁.total l₁ ≤ h.total l := by
    rw [← content_length hc₁.live, hcontent, ← content_length hc.live]
    split
    · rw [List.length_take]
      exact Nat.min_le_right _ _
    · exact Nat.le_refl _
  obtain ⟨h', hrun', -, -, l', hc', hcontent'⟩ := stripHead_slice hs₁ hn₁ hc₁ (Nat.lt_of_le_of_lt ht₁ ht) ha
  rw [hcontent] at hcontent'
  exact ⟨h', l', by rw [hrun]; exact hrun', hc', hcontent'⟩

/-- **Strips commute**, to the bytes from `a` up to `b` before the end, exactly when they take no byte twice or the one
of the head takes everything. -/
theorem strips_commute (hs : h.Sound) (hn : h.Counted) (hc : h.Chain (h.slots i) l)
    (ht : h.total l < 2 ^ 64) {a b : Nat} (ha : a < 2 ^ 64) (hb : b < 2 ^ 64) :
    (∃ h₁ l₁ h₂ l₂, (gabsPbufStripHead h i a >>= (gabsPbufStripTail · i b)) = .ok h₁ ∧ h₁.Chain (h₁.slots i) l₁ ∧
      (gabsPbufStripTail h i b >>= (gabsPbufStripHead · i a)) = .ok h₂ ∧ h₂.Chain (h₂.slots i) l₂ ∧
      h₁.content l₁ = ((h.content l).take (h.total l - b)).drop a ∧
      h₂.content l₂ = ((h.content l).take (h.total l - b)).drop a) ↔ h.total l ≤ a ∨ a + b ≤ h.total l := by
  obtain ⟨h₁, l₁, hrun₁, hc₁, hcontent₁⟩ := head_then_tail hs hn hc ht ha hb
  obtain ⟨h₂, l₂, hrun₂, hc₂, hcontent₂⟩ := tail_then_head hs hn hc ht ha hb
  have hlen := content_length hc.live
  constructor
  · rintro ⟨h₁', l₁', -, -, hrun₁', hc₁', -, -, hmid, -⟩
    by_contra hover
    obtain rfl : h₁ = h₁' := Except.ok.inj (hrun₁.symm.trans hrun₁')
    obtain rfl : l₁ = l₁' := hc₁.unique hc₁'
    -- The strip of the tail has found too few bytes, and has left them.
    rw [if_neg (by omega)] at hcontent₁
    have hleft := congrArg List.length (hcontent₁.symm.trans hmid)
    rw [List.length_drop, List.length_drop, List.length_take, hlen] at hleft
    omega
  · intro hcond
    have hmid : ((h.content l).take (h.total l - b)).drop a = ((h.content l).drop a).take (h.total l - a - b) := by
      rw [List.drop_take, show h.total l - b - a = h.total l - a - b by omega]
    refine ⟨h₁, l₁, h₂, l₂, hrun₁, hc₁, hrun₂, hc₂, ?_, ?_⟩
    · rw [hcontent₁, hmid]
      split
      · rfl
      · rw [List.drop_eq_nil_of_le (by omega), List.take_nil]
    · rw [hcontent₂]
      split
      · rfl
      · rw [List.drop_eq_nil_of_le (by omega), List.drop_eq_nil_of_le (by rw [List.length_take]; omega)]

/-- Five bytes off the head and two off the tail. -/
theorem strips_commute_apart :
    (∃ h₁ l₁ h₂ l₂, (gabsPbufStripHead sharedBack 0 5 >>= (gabsPbufStripTail · 0 2)) = .ok h₁ ∧
      h₁.Chain (h₁.slots 0) l₁ ∧ (gabsPbufStripTail sharedBack 0 2 >>= (gabsPbufStripHead · 0 5)) = .ok h₂ ∧
      h₂.Chain (h₂.slots 0) l₂ ∧
      h₁.content l₁ = ((sharedBack.content [0, 1, 2]).take (sharedBack.total [0, 1, 2] - 2)).drop 5 ∧
      h₂.content l₂ = ((sharedBack.content [0, 1, 2]).take (sharedBack.total [0, 1, 2] - 2)).drop 5) ↔
    sharedBack.total [0, 1, 2] ≤ 5 ∨ 5 + 2 ≤ sharedBack.total [0, 1, 2] :=
  strips_commute (heapOf_sound _ _) (heapOf_counted _ (by decide)) sharedBack_chain (by decide) (by decide) (by decide)

/-- **Strips that overlap**: five bytes off the head of twelve, then ten off the tail, leave seven. -/
theorem strips_overlap : ∃ h₁ h₂, (gabsPbufStripHead sharedBack 0 5 >>= (gabsPbufStripTail · 0 10)) = .ok h₁ ∧
    h₁.chain (h₁.slots 0) = some [1, 2] ∧ (h₁.content [1, 2]).length = 7 ∧
    (gabsPbufStripTail sharedBack 0 10 >>= (gabsPbufStripHead · 0 5)) = .ok h₂ ∧ h₂.chain (h₂.slots 0) = some [] ∧
    ((sharedBack.content [0, 1, 2]).take (12 - 10)).drop 5 = [] := by
  obtain ⟨h₁, hrun₁⟩ : ∃ h₁, (gabsPbufStripHead sharedBack 0 5 >>= (gabsPbufStripTail · 0 10)) = .ok h₁ := ⟨_, rfl⟩
  obtain ⟨h₂, hrun₂⟩ : ∃ h₂, (gabsPbufStripTail sharedBack 0 10 >>= (gabsPbufStripHead · 0 5)) = .ok h₂ := ⟨_, rfl⟩
  refine ⟨h₁, h₂, hrun₁, ?_, ?_, hrun₂, ?_, by decide⟩
  · cases hrun₁
    decide
  · cases hrun₁
    decide
  · cases hrun₂
    decide

/-! ## The tail -/

/-- A fragment that fits has the same tailroom when it is released from the head. -/
theorem Frag.Fits.tailroom_advance (hx : x.Fits) (hn : n ≤ x.size) : (x.advance n).tailroom = x.tailroom := by
  have hroom := hx.room
  have hle := hx.le
  have hafter : (x.advance n).Fits := by
    have hreleased := hx.release_head hn
    rwa [sub_of_le hn] at hreleased
  have htail := hx.tailroom
  have htail' := hafter.tailroom
  rw [hx.headroom] at htail
  rw [hafter.headroom] at htail'
  simp only [Frag.advance, Ptr.add] at htail' ⊢
  omega

/-- **Nothing is cut off** where the last fragment has bytes. -/
theorem keep_all (hs : h.Sound) (ha : h.At i [] (l ++ [f]) it) (hf : 0 < h.size f) :
    keep h it (h.total (l ++ [f])) = .ok h := by
  rcases keep_eq hs ha (h.total (l ++ [f])) with ⟨hkeep, -⟩ | ⟨a, g, t, hl, hkeep, hlo, hhi, -⟩
  · exact hkeep
  · -- The fragments cut off would have no bytes.
    have hzero : h.total t = 0 := by
      rw [hl, total_append, total_cons] at hhi
      omega
    obtain rfl : t = [] := by
      rcases List.eq_nil_or_concat t with rfl | ⟨t', c, rfl⟩
      · rfl
      · rw [List.concat_eq_append] at hl hzero
        have hsplit : l ++ [f] = (a ++ g :: t') ++ [c] := by rw [hl, List.append_assoc]; rfl
        obtain rfl : f = c := by simpa using (List.append_inj_right' hsplit rfl)
        rw [total_append, total_cons, total_nil] at hzero
        omega
    obtain ⟨x, hx⟩ := ha.chain.live g (by rw [hl]; simp)
    have hchain : h.Chain (h.slots i) (a ++ [g]) := by
      have hc := ha.chain
      rwa [hl] at hc
    have hnext : x.next = none := hchain.next_last hx
    have hsize : h.total (l ++ [f]) - h.total a = x.size := by
      rw [hl, total_append, total_cons, total_nil, size_of hx]
      omega
    rw [hkeep, Heap.kept, hsize, adjust_eq_self (k := Frag.resize x.size) hx rfl, link_eq_self hx hnext]
    rfl

/-- The fragments of the buffer in slot `i`, `l`, and their data are as before. -/
def Unstripped (h h' : Heap ι) (i : ι) (l : List Nat) : Prop :=
  h'.Chain (h'.slots i) l ∧ ∀ f ∈ l, h'.frags f = h.frags f

/-- Strips of no bytes. -/
theorem strip_zero (hs : h.Sound) (hc : h.Chain (h.slots i) l) :
    gabsPbufStripHead h i 0 = keep h (ciInit h (.slot i)) (wrap (h.total l)) ∧
    gabsPbufStripTail h i 0 = keep h (ciInit h (.slot i)) (wrap (h.total l)) := by
  have hsize := gabsPbufSize_wrap hs hc
  have hshrink : ∀ size, gabsPbufShrink h i 0 size = keep h (ciInit h (.slot i)) size := fun size => by
    rw [gabsPbufShrink, if_neg (Nat.lt_irrefl 0)]
  have hsub : sub (wrap (h.total l)) 0 = wrap (h.total l) := sub_of_le (Nat.zero_le _)
  constructor
  · simp only [gabsPbufStripHead, hsize, bind, Except.bind, hsub, hshrink]
  · simp only [gabsPbufStripTail, hsize, bind, Except.bind, hsub, hshrink]

/-- What a strip of no bytes leaves as it is: a buffer whose last fragment has bytes. -/
theorem last_of_unstripped (hs : h.Sound) (hc : h.Chain (h.slots i) l) (hpos : 0 < wrap (h.total l)) {h' : Heap ι}
    (hrun : gabsPbufStripHead h i 0 = .ok h') (hu : Unstripped h h' i l) :
    h.total l < 2 ^ 64 ∧ ∃ a f, l = a ++ [f] ∧ 0 < h.size f := by
  rw [(strip_zero hs hc).1] at hrun
  have hle := wrap_le (h.total l)
  rcases keep_eq hs (ciInit_at hc) (wrap (h.total l)) with ⟨-, rfl | hlt⟩ | ⟨a, f, t, rfl, hkeep, hlo, hhi, hchain⟩
  · exact absurd hpos (Nat.lt_irrefl 0)
  · omega
  · obtain rfl : h.kept f (wrap (h.total (a ++ f :: t)) - h.total a) t = h' := Except.ok.inj (hkeep.symm.trans hrun)
    -- The fragments cut off are still there.
    have hsame := hchain.unique hu.1
    obtain rfl : t = [] := by
      have hlen := congrArg List.length hsame
      simp only [List.length_append, List.length_cons, List.length_nil] at hlen
      exact List.length_eq_zero_iff.mp (by omega)
    obtain ⟨x, hx⟩ := hc.live f (by simp)
    have hfrag := hu.2 f (by simp)
    rw [kept_frags hx List.not_mem_nil, hx] at hfrag
    have hsize : wrap (h.total (a ++ [f])) - h.total a = x.size := congrArg Frag.size (Option.some.inj hfrag)
    have htotal : h.total (a ++ [f]) = h.total a + x.size := by
      rw [total_append, total_cons, total_nil, size_of hx]; rfl
    have hless : h.total a < wrap (h.total (a ++ [f])) := by
      rcases hlo with rfl | hlt
      · exact hpos
      · exact hlt
    have hwrap := wrap_lt (h.total (a ++ [f]))
    exact ⟨by omega, a, f, rfl, by rw [size_of hx]; omega⟩

/-- **A strip of the head leaves the tail alone**, where the last fragment has bytes. -/
theorem stripHead_tailroom (hs : h.Sound) (hn : h.Counted) (hc : h.Chain (h.slots i) (l ++ [f]))
    (ht : h.total (l ++ [f]) < 2 ^ 64) (hx : h.frags f = some x) (hfits : x.Fits) (hpos : 0 < x.size) {n : Nat}
    (hlt : n < h.total (l ++ [f])) : ∃ h', gabsPbufStripHead h i n = .ok h' ∧
      gabsPbufTailroom h' (h'.slots i) = .ok x.tailroom := by
  obtain ⟨l₁, l₂, h₁, it, hl, hshrink, hat, hF⟩ := front_eq hs hn hc ht n (h.total (l ++ [f]) - n)
  have hstrip : gabsPbufStripHead h i n = keep h₁ it (h.total (l ++ [f]) - n) := by
    simp only [gabsPbufStripHead, gabsPbufSize_eq hs hc ht, bind, Except.bind, sub_of_le (Nat.le_of_lt hlt), hshrink]
  have hchain : h₁.Chain (h₁.slots i) l₂ := hat.chain
  have ht₁ : h₁.total l₂ = h.total (l ++ [f]) - n := by
    rw [← length_addrs hchain.live, hF.addrs, List.length_drop, ← hl, length_addrs hc.live]
  -- The last fragment is still there.
  obtain ⟨l', rfl⟩ : ∃ l', l₂ = l' ++ [f] := by
    rcases List.eq_nil_or_concat l₂ with rfl | ⟨l', g, rfl⟩
    · rw [total_nil] at ht₁
      omega
    · rw [List.concat_eq_append] at hl ⊢
      rw [← List.append_assoc] at hl
      obtain rfl : f = g := by simpa using (List.append_inj_right' hl rfl)
      exact ⟨l', rfl⟩
  obtain ⟨k, hx₁, hk⟩ := hF.frags f (by simp) x hx
  have hle : k ≤ x.size := by omega
  have hbytes : 0 < h₁.size f := by
    rw [size_of hx₁]
    simp only [Frag.advance]
    omega
  refine ⟨h₁, ?_, ?_⟩
  · rw [hstrip, ← ht₁]
    exact keep_all hF.sound hat hbytes
  · rw [gabsPbufTailroom_eq hF.sound hchain hx₁, hfits.tailroom_advance hle]

/-- **A head strip leaves the tail alone**, and a strip of no bytes everything, exactly when the buffer has no bytes, or
its size is a `size_t` and its last fragment has bytes. -/
theorem strip_head_frames (hs : h.Sound) (hn : h.Counted) (hc : h.Chain (h.slots i) l)
    (hfits : ∀ f ∈ l, ∀ x, h.frags f = some x → x.Fits) {n : Nat} (hsize : gabsPbufSize h (h.slots i) = .ok n) :
    ((∀ k < n, ∃ h', gabsPbufStripHead h i k = .ok h' ∧
        gabsPbufTailroom h' (h'.slots i) = gabsPbufTailroom h (h.slots i)) ∧
      (0 < n → (∃ h', gabsPbufStripHead h i 0 = .ok h' ∧ Unstripped h h' i l) ∧
        ∃ h', gabsPbufStripTail h i 0 = .ok h' ∧ Unstripped h h' i l)) ↔
    n = 0 ∨ h.total l < 2 ^ 64 ∧ ∃ a f, l = a ++ [f] ∧ 0 < h.size f := by
  obtain rfl : wrap (h.total l) = n := by
    rw [gabsPbufSize_wrap hs hc] at hsize
    exact Except.ok.inj hsize
  constructor
  · rintro ⟨-, hzero⟩
    rcases Nat.eq_zero_or_pos (wrap (h.total l)) with h0 | hpos
    · exact .inl h0
    · obtain ⟨⟨h', hrun, hu⟩, -⟩ := hzero hpos
      exact .inr (last_of_unstripped hs hc hpos hrun hu)
  · rintro (h0 | ⟨ht, a, f, rfl, hpos⟩)
    · exact ⟨fun k hk => by omega, fun hpos => by omega⟩
    · rw [wrap_of_lt ht]
      obtain ⟨x, hx⟩ := hc.live f (by simp)
      have hroom := gabsPbufTailroom_eq hs hc hx
      obtain ⟨hhead, htail⟩ := strip_zero hs hc
      rw [wrap_of_lt ht] at hhead htail
      have hkeep := keep_all hs (ciInit_at hc) hpos
      rw [size_of hx] at hpos
      refine ⟨fun k hk => ?_, fun _ => ⟨⟨h, hhead.trans hkeep, hc, fun _ _ => rfl⟩,
        h, htail.trans hkeep, hc, fun _ _ => rfl⟩⟩
      rw [hroom]
      exact stripHead_tailroom hs hn hc ht hx (hfits f (by simp) x hx) hpos hk

/-- A buffer of three fragments of four bytes. -/
theorem strip_head_frames_twelve :
    ((∀ k < 12, ∃ h', gabsPbufStripHead sharedBack 0 k = .ok h' ∧
        gabsPbufTailroom h' (h'.slots 0) = gabsPbufTailroom sharedBack (sharedBack.slots 0)) ∧
      (0 < 12 → (∃ h', gabsPbufStripHead sharedBack 0 0 = .ok h' ∧ Unstripped sharedBack h' 0 [0, 1, 2]) ∧
        ∃ h', gabsPbufStripTail sharedBack 0 0 = .ok h' ∧ Unstripped sharedBack h' 0 [0, 1, 2])) ↔
    12 = 0 ∨ sharedBack.total [0, 1, 2] < 2 ^ 64 ∧ ∃ a f, [0, 1, 2] = a ++ [f] ∧ 0 < sharedBack.size f := by
  refine strip_head_frames (heapOf_sound _ _) (heapOf_counted _ (by decide)) sharedBack_chain (fun f hf x hx => ?_) rfl
  obtain rfl | rfl | rfl : f = 0 ∨ f = 1 ∨ f = 2 := by simpa using hf
  · cases hx
    exact ⟨rfl, by decide, by decide, by decide⟩
  · cases hx
    exact ⟨rfl, by decide, by decide, by decide⟩
  · cases hx
    exact ⟨rfl, by decide, by decide, by decide⟩

/-- **A tail that is lost**: four bytes, and a fragment without bytes that has room for eight; a byte is stripped off
the head. -/
theorem strip_head_detaches : ∃ h h' : Heap (Fin 1), h.chain (h.slots 0) = some [0, 1] ∧
    gabsPbufSize h (h.slots 0) = .ok 4 ∧ gabsPbufTailroom h (h.slots 0) = .ok 8 ∧
    gabsPbufStripHead h 0 1 = .ok h' ∧ gabsPbufTailroom h' (h'.slots 0) = .ok 0 := by
  refine ⟨heapOf (fun _ => some 0) [⟨⟨.own 0, 0⟩, ⟨.own 0, 0⟩, 4, 4, false, 1, some 1, 0⟩,
    ⟨⟨.own 1, 0⟩, ⟨.own 1, 0⟩, 0, 8, false, 1, none, 0⟩], _, by decide, rfl, rfl, rfl, rfl⟩

end Gabs.Pbuf
