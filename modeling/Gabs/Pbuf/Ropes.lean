import Gabs.Pbuf.Pieces

/-!
# Packet buffers are ropes of bytes

- `Gives`: a computation leads to a heap that shows the ropes it should;
- `new_gives` … `releaseTail_gives`: one operation of the client, each of them;
- `op_gives`: every operation that is allowed; `ropes_refine`: every run.
-/

namespace Gabs.Pbuf

open Gabs.Lib

variable {ι : Type} {h h' : Heap ι} {i j : ι} {p : Option Nat} {f k n : Nat} {x y : Frag} {l l₁ l₂ m : List Nat}
  {c : ι → List Nat} {a a' : Ropes ι} {r : Rope UInt8} {it : Ci ι} {data : List UInt8}

/-- The computation leads to a heap that shows the ropes `a`. -/
def Gives (e : Except Fault (Heap ι)) (a : Ropes ι) : Prop := ∃ h c, e = .ok h ∧ h.Shows c a

/-! ## Pieces that are trimmed -/

theorem held_advance (hx : x.Fits) (hn : n ≤ x.size) (b : Ptr → UInt8) :
    (x.advance n).held b = (x.held b).advance n := by
  have hle := hx.le
  have hroom := hx.room
  have hfits : (x.advance n).Fits := by
    have hrel := hx.release_head hn
    rwa [sub_of_le hn] at hrel
  have htail := hx.tailroom
  have htail' := hfits.tailroom
  rw [hx.headroom] at htail
  rw [hfits.headroom] at htail'
  have haddrs : (x.advance n).addrs = x.addrs.drop n := addrs_release_head x n
  rw [Frag.held, Frag.held, Piece.advance, haddrs, List.map_drop, hfits.headroom, hx.headroom]
  simp only [Frag.advance, Ptr.add] at htail' ⊢
  rw [Piece.mk.injEq]
  refine ⟨by omega, rfl, ?_⟩
  show (x.advance n).tailroom = x.tailroom
  simp only [Frag.advance, Ptr.add]
  omega

theorem held_resize (hx : x.Fits) (hn : n ≤ x.size) (b : Ptr → UInt8) : (x.resize n).held b = (x.held b).resize n := by
  have hfits : (x.resize n).Fits := by
    have hrel := hx.release_tail (Nat.sub_le x.size n)
    rwa [sub_of_le (Nat.sub_le _ _), Nat.sub_sub_self hn] at hrel
  have hhead : (x.resize n).headroom = x.headroom := rfl
  have htail := hx.tailroom
  have htail' := hfits.tailroom
  have haddrs : (x.resize n).addrs = x.addrs.take n := addrs_release_tail hn
  have hlen : (x.addrs.map b).length = x.size := by rw [List.length_map, addrs_length]
  rw [hhead] at htail'
  rw [Frag.held, Frag.held, Piece.resize, haddrs, List.map_take, hhead, Piece.mk.injEq]
  refine ⟨rfl, rfl, ?_⟩
  show (x.resize n).tailroom = x.tailroom + ((x.addrs.map b).length - n)
  rw [hlen]
  simp only [Frag.resize] at htail' ⊢
  omega

/-- The rope of a part of a buffer that has been written. -/
theorem Heap.Shows.rope_split (hs : h.Shows c a) (e : c i = l ++ m) {s : Rope UInt8} (hr : a i = r ++ s)
    (hlen : l.length = r.length) : h.rope l = r ∧ h.rope m = s := by
  have hrope := hs.rope i
  rw [e, rope_append, hr] at hrope
  exact List.append_inj hrope (by rw [Heap.rope, List.length_map, hlen])

/-- The bytes of a fragment. -/
theorem piece_length (hx : h.frags f = some x) : (h.piece f).elems.length = x.size := by
  rw [piece_elems hx, List.length_map, addrs_length]

/-- `gabs_pbuf_ci_release_head`. -/
theorem ciReleaseHead_of (hx : h.frags f = some x) (hn : n ≤ x.size) (lp : Link ι) :
    ciReleaseHead h ⟨some f, lp⟩ n = .ok (h.adjust f (Frag.advance n), x.data) := by
  have hok : h.assert (decide (n ≤ x.size)) = .ok () := assert_of hn h
  have hmod := modify_of hx fun x => { x with size := sub x.size n, data := x.data.add n }
  simp only [ciReleaseHead, deref_of hx, bind, Except.bind, hok, hmod]
  rw [Heap.adjust, hx, Option.map_some, sub_of_le hn]
  rfl

/-- `gabs_pbuf_ci_release_tail`. -/
theorem ciReleaseTail_of (hx : h.frags f = some x) (hn : n ≤ x.size) (lp : Link ι) :
    ∃ q, ciReleaseTail h ⟨some f, lp⟩ n = .ok (h.adjust f (Frag.resize (x.size - n)), q) := by
  have hok : h.assert (decide (n ≤ x.size)) = .ok () := assert_of hn h
  have hmod := modify_of hx fun x => { x with size := sub x.size n }
  simp only [ciReleaseTail, deref_of hx, bind, Except.bind, hok, hmod]
  rw [Heap.adjust, hx, Option.map_some, sub_of_le hn]
  exact ⟨_, rfl⟩

variable [DecidableEq ι]

/-- A fragment keeps the first `n` of its bytes, or gives them up. -/
theorem Heap.Shows.adjust (hs : h.Shows c a) (e : c i = l₁ ++ f :: l₂) (hx : h.Whole f x) {g : Frag → Frag}
    (hbase : (g x).base = x.base) (hnext : (g x).next = x.next) (hcap : (g x).cap = x.cap) (hfits : (g x).Fits)
    {b : Piece UInt8} (hb : (g x).held h.byte = b) :
    (h.adjust f g).Shows c (Function.update a i (h.rope l₁ ++ b :: h.rope l₂)) := by
  have hadjust : h.adjust f g = (h.put f (g x)).store ⟨.own f, 0⟩ [] := by
    rw [store_nil, Heap.adjust, hx.frag]
    rfl
  have hself : (h.put f (g x)).frags f = some (g x) := Function.update_self ..
  rw [hadjust]
  apply hs.write (q := ⟨.own f, 0⟩) e hx hbase hnext hcap hfits rfl
  rw [store_nil, piece_of hself, ← hb]
  rfl

/-! ## Shrinking -/

/-- The fragments in front are taken out. -/
theorem Heap.Shows.dropped (hs : h.Shows c a) (e : c i = l ++ l₂) :
    (h.dropped i l₂ l).Shows (Function.update c i l₂) (Function.update a i (h.rope l₂)) := by
  induction l generalizing h c a with
  | nil =>
    have hrope := hs.rope i
    rw [e, List.nil_append] at hrope
    rw [List.nil_append] at e
    rw [Heap.dropped, hrope, ← e, Function.update_eq_self, Function.update_eq_self]
    exact hs
  | cons f l ih =>
    have ha : h.At i [] (f :: (l ++ l₂)) (ciInit h (.slot i)) :=
      ciInit_at (by rw [← List.cons_append, ← e]; exact hs.chain i)
    have hs₁ := hs.remove ha
    rw [rope_nil, List.nil_append, List.nil_append] at hs₁
    have e₁ : Function.update c i (l ++ l₂) i = l ++ l₂ := Function.update_self ..
    have hr₁ : Function.update a i (h.rope (l ++ l₂)) i = h.rope l ++ h.rope l₂ := by
      rw [Function.update_self, rope_append]
    have hsplit := (hs₁.rope_split e₁ hr₁ (by rw [Heap.rope, List.length_map])).2
    have hrest := ih hs₁ e₁
    rw [Function.update_idem, Function.update_idem, hsplit] at hrest
    exact hrest

/-- The last fragment that is kept is trimmed, and those behind it are cut off. -/
theorem Heap.Shows.kept (hs : h.Shows c a) (e : c i = l₁ ++ f :: l₂) (hk : k ≤ h.size f) :
    (h.kept f k l₂).Shows (Function.update c i (l₁ ++ [f]))
      (Function.update a i (h.rope l₁ ++ [(h.piece f).resize k])) := by
  obtain ⟨x, hx⟩ := hs.whole i f (by simp [e])
  rw [size_of hx.frag] at hk
  have hfits : (x.resize k).Fits := by
    have hrel := hx.fits.release_tail (Nat.sub_le x.size k)
    rwa [sub_of_le (Nat.sub_le _ _), Nat.sub_sub_self hk] at hrel
  have hs₁ := hs.adjust e hx (g := Frag.resize k) rfl rfl rfl hfits (held_resize hx.fits hk h.byte)
  have hlen : (l₁ ++ [f]).length = (h.rope l₁ ++ [(h.piece f).resize k]).length := by simp [Heap.rope]
  have e₁ : c i = (l₁ ++ [f]) ++ l₂ := by rw [e, List.append_assoc]; rfl
  have hr₁ : Function.update a i (h.rope l₁ ++ (x.held h.byte).resize k :: h.rope l₂) i =
      (h.rope l₁ ++ [(h.piece f).resize k]) ++ h.rope l₂ := by
    rw [Function.update_self, List.append_assoc, piece_of hx.frag]
    rfl
  have ha : (h.adjust f (Frag.resize k)).At i (l₁ ++ [f]) l₂ ⟨l₂.head?, lastp i (l₁ ++ [f])⟩ :=
    ⟨e₁ ▸ hs₁.chain i, rfl, rfl⟩
  have hs₂ := hs₁.detach ha
  rw [(hs₁.rope_split e₁ hr₁ hlen).1, lastp_concat, Function.update_idem] at hs₂
  exact hs₂

/-- **The second part of `gabs_pbuf_shrink`.** -/
theorem keep_gives (hs : h.Shows c a) (ha : h.At i [] (c i) it) (size : Nat) :
    Gives (keep h it size) (Function.update a i (Rope.back size (a i))) := by
  rcases keep_eq hs.sound ha size with ⟨hrun, hle⟩ | ⟨l, f, t, e, hrun, hlo, hhi, -⟩
  · refine ⟨h, c, hrun, ?_⟩
    have hall : Rope.back size (a i) = a i := by
      apply Rope.back_all
      rcases hle with hnil | hlt
      · left
        rw [← hs.rope i, hnil, rope_nil]
      · right
        rwa [← hs.size i]
    rw [hall, Function.update_eq_self]
    exact hs
  · have hlive : ∀ g ∈ l, ∃ x, h.frags g = some x := fun g hg => (hs.chain i).live g (by simp [e, hg])
    obtain ⟨x, hx⟩ := hs.whole i f (by simp [e])
    have hsize : h.size f = (h.piece f).elems.length := by rw [size_of hx.frag, piece_length hx.frag]
    have htotal := rope_size hlive
    have hback : Rope.back size (a i) = h.rope l ++ [(h.piece f).resize (size - h.total l)] := by
      rw [← hs.rope i, e, rope_append, rope_cons, ← htotal]
      apply Rope.back_split
      · rcases hlo with rfl | hlt
        · exact .inl rfl
        · right
          omega
      · omega
    rw [hback]
    exact ⟨_, _, hrun, hs.kept e (by omega)⟩

/-- **The first part of `gabs_pbuf_shrink`.** -/
theorem front_gives (hs : h.Shows c a) (ht : (a i).size < 2 ^ 64) {offset : Nat} (hpos : 0 < offset) (size : Nat) :
    ∃ h₁ c₁ it, gabsPbufShrink h i offset size = keep h₁ it size ∧
      h₁.Shows c₁ (Function.update a i (Rope.front offset (a i))) ∧ h₁.At i [] (c₁ i) it := by
  have htotal := hs.size i
  obtain ⟨l₁, l₂, e, hloop, -, hle, hlast⟩ :=
    dropLoop_eq hs.sound (hs.chain i) ((hs.chain i).length_lt hs.sound) (Nat.zero_le offset) (by omega)
  rw [Nat.zero_add] at hloop hle hlast
  have hs₁ := hs.dropped e
  have hlive : ∀ g ∈ l₁, ∃ x, h.frags g = some x := fun g hg => (hs.chain i).live g (by simp [e, hg])
  have hself : Function.update c i l₂ i = l₂ := Function.update_self ..
  have hsize := rope_size hlive
  have hrope : a i = h.rope l₁ ++ h.rope l₂ := by rw [← hs.rope i, e, rope_append]
  rw [gabsPbufShrink, if_pos hpos, ciInit, hloop, hrope]
  simp only [bind, Except.bind]
  cases l₂ with
  | nil =>
    -- Nothing is left.
    have hfront : Rope.front offset (h.rope l₁ ++ h.rope []) = [] := by
      rw [rope_nil, List.append_nil]
      apply Rope.front_all
      omega
    rw [hfront]
    exact ⟨_, _, ⟨none, .slot i⟩, rfl, hs₁, hs₁.chain i, by rw [hself]; rfl, rfl⟩
  | cons f t =>
    obtain ⟨x, hx⟩ := hs₁.whole i f (by rw [hself]; exact List.mem_cons_self)
    have hf : f ∉ l₁ := by
      have hnd := (hs.chain i).path.nodup
      rw [e] at hnd
      intro hf
      exact (List.nodup_append.mp hnd).2.2 f hf f List.mem_cons_self rfl
    have hold : h.frags f = some x := (dropped_frags_of_notMem hf).symm.trans hx.frag
    have hlt := hlast f rfl
    rw [size_of hold] at hlt
    have hn : offset - h.total l₁ ≤ x.size := by omega
    have hfront : Rope.front offset (h.rope l₁ ++ h.rope (f :: t)) =
        (h.piece f).advance (offset - h.total l₁) :: h.rope t := by
      rw [rope_cons, ← hsize]
      apply Rope.front_split
      · omega
      · rw [piece_length hold]
        omega
    have hbyte : (h.dropped i (f :: t) l₁).byte = h.byte := by
      funext q
      rw [Heap.byte, dropped_bytes, Heap.byte]
    have htail : (h.dropped i (f :: t) l₁).rope t = h.rope t := by
      have hr₁ : Function.update a i (h.rope (f :: t)) i = h.rope [f] ++ h.rope t := Function.update_self ..
      exact (hs₁.rope_split (l := [f]) hself hr₁ rfl).2
    -- The first fragment that is left is trimmed.
    have hfits : (x.advance (offset - h.total l₁)).Fits := by
      have hrel := hx.fits.release_head hn
      rwa [sub_of_le hn] at hrel
    have e₁ : Function.update c i (f :: t) i = [] ++ f :: t := hself
    have hs₂ := hs₁.adjust (g := Frag.advance (offset - h.total l₁)) e₁ hx rfl rfl rfl hfits
      (held_advance hx.fits hn _)
    rw [rope_nil, List.nil_append, Function.update_idem, htail, hbyte, ← piece_of hold, ← hfront] at hs₂
    refine ⟨_, _, ⟨some f, .slot i⟩, ?_, hs₂, hs₂.chain i, by rw [hself]; rfl, rfl⟩
    have heoi : ¬ ciEoi (⟨(f :: t).head?, .slot i⟩ : Ci ι) = true := by simp [ciEoi]
    rw [if_neg heoi]
    split
    · rw [sub_of_le hle, List.head?_cons, ciReleaseHead_of hx.frag hn]
    · rename_i hsame
      have hzero : offset - h.total l₁ = 0 := by omega
      rw [hzero, adjust_eq_self hx.frag rfl, List.head?_cons]

/-- **`gabs_pbuf_shrink`** slices the rope. -/
theorem shrink_gives (hs : h.Shows c a) (ht : (a i).size < 2 ^ 64) (offset size : Nat) :
    Gives (gabsPbufShrink h i offset size) (Function.update a i (Rope.slice offset size (a i))) := by
  rcases Nat.eq_zero_or_pos offset with rfl | hpos
  · rw [gabsPbufShrink, if_neg (Nat.lt_irrefl 0), Rope.slice, if_pos rfl]
    exact keep_gives hs (ciInit_at (hs.chain i)) size
  · obtain ⟨h₁, c₁, it, hrun, hs₁, ha⟩ := front_gives hs ht hpos size
    have hkeep := keep_gives hs₁ ha size
    rw [hrun, Rope.slice, if_neg (Nat.ne_of_gt hpos)]
    rwa [Function.update_self, Function.update_idem] at hkeep

/-- **`gabs_pbuf_strip_head`.** -/
theorem stripHead_gives (hs : h.Shows c a) (ht : (a i).size < 2 ^ 64) (n : Nat) :
    Gives (h.op (.stripHead i n)) (Function.update a i (Rope.slice n ((a i).size - n) (a i))) := by
  have htotal := hs.size i
  have hsize := gabsPbufSize_eq hs.sound (hs.chain i) (by rwa [htotal])
  have hrun : h.op (.stripHead i n) = gabsPbufShrink h i n (sub (a i).size n) := by
    simp only [Heap.op, Heap.call, gabsPbufStripHead, hsize, htotal, bind, Except.bind]
  have hshrink := shrink_gives hs ht n (sub (a i).size n)
  rw [hrun]
  by_cases hn : n ≤ (a i).size
  · rwa [sub_of_le hn] at hshrink ⊢
  · -- Nothing is left, whatever is kept of it.
    have hnone : ∀ m, Rope.slice n m (a i) = [] := by
      intro m
      rw [Rope.slice, if_neg (by omega), Rope.front_all (by omega)]
      rfl
    rwa [hnone] at hshrink ⊢

/-- **`gabs_pbuf_strip_tail`** keeps everything when it is to strip more than there is. -/
theorem stripTail_gives (hs : h.Shows c a) (ht : (a i).size < 2 ^ 64) (hn : n < 2 ^ 64) :
    Gives (h.op (.stripTail i n))
      (Function.update a i (if n ≤ (a i).size then Rope.slice 0 ((a i).size - n) (a i) else a i)) := by
  have htotal := hs.size i
  have hsize := gabsPbufSize_eq hs.sound (hs.chain i) (by rwa [htotal])
  have hrun : h.op (.stripTail i n) = gabsPbufShrink h i 0 (sub (a i).size n) := by
    simp only [Heap.op, Heap.call, gabsPbufStripTail, hsize, htotal, bind, Except.bind]
  have hshrink := shrink_gives hs ht 0 (sub (a i).size n)
  rw [hrun]
  by_cases hle : n ≤ (a i).size
  · rw [if_pos hle]
    rwa [sub_of_le hle] at hshrink ⊢
  · have hall : Rope.slice 0 (sub (a i).size n) (a i) = a i := by
      rw [Rope.slice, if_pos rfl, sub, if_neg hle]
      apply Rope.back_all
      omega
    rw [if_neg hle]
    rwa [hall] at hshrink

/-! ## Making and releasing -/

omit [DecidableEq ι] in
theorem Heap.Shows.nil (hs : h.Shows c a) (hi : a i = []) : c i = [] := by
  rw [← List.length_eq_zero_iff, hs.length i, hi, List.length_nil]

/-- **A new fragment** becomes buffer `i`. -/
theorem Heap.Shows.made (hs : h.Shows c a) (hsound : h'.Sound) (hslots : h'.slots = h.slots)
    (hfrags : ∀ f, f ≠ h.asked → h'.frags f = h.frags f) (halike : ∀ f, f ≠ h.asked → Alike h h' f)
    (hx : h'.Whole h.asked x) (hnext : x.next = none) :
    (h'.hold i (some h.asked)).Shows (Function.update c i [h.asked]) (Function.update a i [x.held h'.byte]) := by
  have hold : ∀ k, ∀ f ∈ c k, f ≠ h.asked := fun k f hf => (hs.chain k).ne_asked hs.sound hf
  refine hs.set hsound (fun k hk => ?_) (fun k _ f hf => ?_) ?_ (fun k _ f hf => by simpa using hold k f hf) ?_ ?_
  · have hslot : (h'.hold i (some h.asked)).slots k = h.slots k :=
      (Function.update_of_ne hk ..).trans (congrFun hslots k)
    rw [hslot]
    refine (hs.chain k).congr (fun f hf => ?_) fun f hf => ?_
    · show h'.next f = h.next f
      rw [Heap.next, hfrags f (hold k f hf), Heap.next]
    · obtain ⟨y, hy⟩ := (hs.chain k).live f hf
      exact ⟨y, (hfrags f (hold k f hf)).trans hy⟩
  · have ha := halike f (hold k f hf)
    exact ⟨ha.frag, ha.block, ha.bytes⟩
  · have hslot : (h'.hold i (some h.asked)).slots i = some h.asked := Function.update_self ..
    rw [hslot]
    refine ⟨⟨rfl, (next_of hx.frag).trans hnext⟩, fun f hf => ?_⟩
    rw [List.mem_singleton.mp hf]
    exact ⟨x, hx.frag⟩
  · intro f hf
    rw [List.mem_singleton.mp hf]
    exact ⟨x, hx.frag, hx.base, hx.fits, hx.block⟩
  · rw [rope_cons, rope_nil, piece_of (show (h'.hold i (some h.asked)).frags h.asked = some x from hx.frag)]
    rfl

/-- An allocation has failed: buffer `i`, which was not okay, is not. -/
theorem Heap.Shows.refused (hs : h.Shows c a) (hi : a i = []) (n : Nat) :
    ((h.refused n).hold i none).Shows c (Function.update a i []) := by
  have hset : ((h.refused n).hold i none).Shows (Function.update c i []) (Function.update a i []) := by
    refine hs.set (fun f y hy => Nat.lt_succ_of_lt (hs.sound f y hy)) (fun k hk => ?_) (fun k _ f hf => ?_) ?_ (by simp)
      (by simp) rfl
    · have hslot : ((h.refused n).hold i none).slots k = h.slots k := Function.update_of_ne hk ..
      rw [hslot]
      exact ⟨(hs.chain k).path, (hs.chain k).live⟩
    · exact alike_of rfl (Function.update_of_ne ((hs.chain k).ne_asked hs.sound hf) ..) rfl
    · have hslot : ((h.refused n).hold i none).slots i = none := Function.update_self ..
      rw [hslot]
      exact chain_nil
  rwa [← hs.nil hi, Function.update_eq_self] at hset

omit [DecidableEq ι] in
/-- `gabs_pbuf_new`, when its allocation fails and assertions are compiled out. -/
theorem new_refused (hg : ¬ h.grants h.asked = true) (hd : h.ndebug = true) (alloc size : Nat) :
    gabsPbufNew h alloc size = .ok (h.refused (wrap (sizeofFrag + size)), none) := by
  have hassert : (h.refused (wrap (sizeofFrag + size))).assert false = .ok () :=
    if_pos (by rw [Bool.or_false]; exact hd)
  have hrun : gabsPbufNew h alloc size = (do
      (h.refused (wrap (sizeofFrag + size))).assert false
      .ok (h.refused (wrap (sizeofFrag + size)), none)) := if_neg hg
  rw [hrun, hassert]
  rfl

omit [DecidableEq ι] in
theorem new_granted (hg : h.grants h.asked = true) (alloc size : Nat) : gabsPbufNew h alloc size =
    .ok (h.fresh (wrap (sizeofFrag + size)) (.blank h.asked size alloc), some h.asked) := by
  simp only [gabsPbufNew, hg, if_true, Heap.put, Heap.fresh, Frag.blank]

/-- **`gabs_pbuf_new`.** -/
theorem new_gives (hs : h.Shows c a) (hok : h.grants h.asked = true ∨ h.ndebug = true) (hi : a i = []) {size : Nat}
    (hsize : sizeofFrag + size < 2 ^ 64) (alloc : Nat) :
    Gives (h.op (.new i alloc size)) (Function.update a i (if h.grants h.asked then [.blank size] else [])) := by
  by_cases hg : h.grants h.asked = true
  · have hself := fresh_frags_self h (wrap (sizeofFrag + size)) (.blank h.asked size alloc)
    have hrequest : (h.fresh (wrap (sizeofFrag + size)) (.blank h.asked size alloc)).requests h.asked =
        sizeofFrag + size := (Function.update_self ..).trans (wrap_of_lt hsize)
    have hx : (h.fresh (wrap (sizeofFrag + size)) (.blank h.asked size alloc)).Whole h.asked
        (.blank h.asked size alloc) :=
      ⟨hself, rfl, fits_blank _ _ (by omega), by rw [hrequest]; rfl⟩
    have hmade := hs.made (i := i) (hs.sound.fresh _ _) rfl (fun f hf => fresh_frags_of_ne hf _ _)
      (fun f hf => alike_of (fresh_frags_of_ne hf _ _) (Function.update_of_ne hf ..) rfl) hx rfl
    have hroom := hx.cap_eq
    simp only [Frag.blank, Nat.zero_add] at hroom
    have hheld : (Frag.blank h.asked size alloc).held
        (h.fresh (wrap (sizeofFrag + size)) (.blank h.asked size alloc)).byte = .blank size := by
      rw [Frag.held, hx.headroom, Frag.blank, hroom]
      rfl
    rw [hheld] at hmade
    rw [if_pos hg]
    refine ⟨_, _, ?_, hmade⟩
    simp only [Heap.op, Heap.call, new_granted hg, bind, Except.bind]
  · rw [if_neg hg]
    refine ⟨(h.refused (wrap (sizeofFrag + size))).hold i none, c, ?_, hs.refused hi _⟩
    simp only [Heap.op, Heap.call, new_refused hg (hok.resolve_left hg), bind, Except.bind]

omit [DecidableEq ι] in
/-- The bytes of a buffer are accessible. -/
theorem Heap.Shows.readable (hs : h.Shows c a) (i : ι) : h.Readable (c i) := by
  intro f hf x hx
  obtain ⟨y, hy⟩ := hs.whole i f hf
  obtain rfl : y = x := Option.some.inj (hy.frag.symm.trans hx)
  have hcap := hy.cap_eq
  exact hy.touch_add (k := 0) (by omega)

omit [DecidableEq ι] in
theorem Heap.Shows.content (hs : h.Shows c a) (i : ι) : h.content (c i) = (a i).elems := by
  rw [← hs.rope i, rope_elems (hs.chain i).live]

/-- **`gabs_pbuf_clone`.** -/
theorem clone_gives (hs : h.Shows c a) (hok : h.grants h.asked = true ∨ h.ndebug = true) (ht : (a j).size < 2 ^ 64)
    (hi : a i = []) {offset size : Nat} (hsize : sizeofFrag + size < 2 ^ 64) (hle : offset + size ≤ (a j).size)
    (alloc : Nat) : Gives (h.op (.clone i j offset size alloc)) (Function.update a i
      (if h.grants h.asked then [.full (((a j).elems.drop offset).take size)] else [])) := by
  by_cases hg : h.grants h.asked = true
  · have hclone := gabsPbufClone_eq hs.sound (hs.chain j) (by rwa [hs.size j]) (hs.readable j) hg
      (by rwa [hs.size j]) alloc
    rw [if_pos hsize, hs.content j] at hclone
    set b := ((a j).elems.drop offset).take size
    have hlen : b.length = size := by
      rw [List.length_take, List.length_drop]
      show min size ((a j).size - offset) = size
      omega
    have hcloned := cloned_of (b := b) h alloc (by rwa [hlen])
    rw [hlen] at hcloned
    have hx : ((h.reserved size alloc).store ⟨.own h.asked, 0⟩ b).Whole h.asked (.filled h.asked size alloc) := by
      refine ⟨hlen ▸ hcloned.frag, rfl, fits_filled _ _ (by omega), ?_⟩
      have hblock := hcloned.block
      rwa [hlen] at hblock
    have hsound : ((h.reserved size alloc).store ⟨.own h.asked, 0⟩ b).Sound := hs.sound.reserved size alloc
    have hmade := hs.made (i := i) hsound rfl (fun f hf => hcloned.frags f hf)
      (fun f hf => alike_of (hcloned.frags f hf) (Function.update_of_ne hf ..) (funext fun o =>
        hcloned.byte ⟨.own f, o⟩ fun e => hf (Block.own.inj e))) hx rfl
    have hroom := hx.cap_eq
    simp only [Frag.filled, Frag.blank, Nat.zero_add] at hroom
    have hbytes : (Frag.filled h.asked size alloc).addrs.map ((h.reserved size alloc).store ⟨.own h.asked, 0⟩ b).byte =
        b := by
      have hcontent := hcloned.content
      rwa [content_cons hx.frag, Heap.content, addrs_nil, List.map_nil, List.append_nil] at hcontent
    have hheld : (Frag.filled h.asked size alloc).held ((h.reserved size alloc).store ⟨.own h.asked, 0⟩ b).byte =
        .full b := by
      rw [Frag.held, hbytes, hx.headroom, Piece.full, Piece.mk.injEq]
      refine ⟨rfl, rfl, ?_⟩
      show (Frag.filled h.asked size alloc).tailroom = 0
      simp only [Frag.filled, Frag.blank]
      omega
    rw [hheld] at hmade
    rw [if_pos hg]
    refine ⟨_, _, ?_, hmade⟩
    simp only [Heap.op, Heap.call, hclone, bind, Except.bind]
  · rw [if_neg hg]
    refine ⟨(h.refused (wrap (sizeofFrag + size))).hold i none, c, ?_, hs.refused hi _⟩
    simp only [Heap.op, Heap.call, gabsPbufClone, new_refused hg (hok.resolve_left hg), bind, Except.bind, gabsPbufOkay,
      Option.isSome_none, Bool.not_false, if_true]

/-- **`gabs_pbuf_decref`.** -/
theorem decref_gives (hs : h.Shows c a) (i : ι) : Gives (h.op (.decref i)) (Function.update a i []) := by
  have hrun := decrefLoop_eq (hs.chain i) ((hs.chain i).length_lt hs.sound)
  refine ⟨(h.unref (c i)).hold i none, Function.update c i [], ?_, ?_⟩
  · simp only [Heap.op, Heap.call, gabsPbufDecref, hrun, bind, Except.bind]
  · refine hs.keep (by simp) (hs.sound.unref (c i)) (fun k hk => ?_) ?_ fun f hf => ?_
    · have hslot : ((h.unref (c i)).hold i none).slots k = h.slots k := by
        rw [← unref_slots h (c i)]
        exact Function.update_of_ne hk ..
      have hchain := (hs.chain k).unref fun f hf hfk => hs.apart k i hk f hfk hf
      rw [hslot]
      exact ⟨hchain.path, hchain.live⟩
    · have hslot : ((h.unref (c i)).hold i none).slots i = none := Function.update_self ..
      rw [hslot]
      exact chain_nil
    · have ha := unref_alike h (hf.resolve_right List.not_mem_nil)
      exact ⟨ha.frag, ha.block, ha.bytes⟩

end Gabs.Pbuf
