import Gabs.Pbuf.Ropes

/-!
# Packet buffers are ropes of bytes: every operation

- `seek_at`: an iterator that is moved on;
- `chainFront_gives`, `chainBack_gives`, `chainAt_gives`, `put_gives`: chaining and filling;
- `insert_gives` … `releaseTail_gives`: what the client does with an iterator;
- `op_gives`: every operation that is allowed; `ropes_refine`: every run.
-/

namespace Gabs.Pbuf

open Gabs.Lib

variable {ι : Type} [DecidableEq ι] {h h' : Heap ι} {i j : ι} {f k n : Nat} {x y : Frag} {l l₁ l₂ : List Nat}
  {c : ι → List Nat} {a a' : Ropes ι} {r : Rope UInt8} {it : Ci ι} {data : List UInt8}

/-! ## Chaining -/

/-- Two buffers that are joined. -/
theorem join_eq (ha : a.join i j r = some a') :
    i ≠ j ∧ r.size < 2 ^ 64 ∧ Function.update (Function.update a j []) i r = a' := by
  rw [Ropes.join] at ha
  split at ha
  · rename_i hij
    rw [Ropes.become] at ha
    split at ha
    · rename_i hsize
      exact ⟨hij, hsize, Option.some.inj ha⟩
    · cases ha
  · cases ha

theorem become_eq (ha : a.become i r = some a') : r.size < 2 ^ 64 ∧ Function.update a i r = a' := by
  rw [Ropes.become] at ha
  split at ha
  · rename_i hsize
    exact ⟨hsize, Option.some.inj ha⟩
  · cases ha

/-- The buffer in slot `j` is inserted at a position, and consumed. -/
theorem Heap.Shows.insert_gives (hs : h.Shows c a) (ha : h.At i l₁ l₂ it)
    (hj : a.join i j (h.rope l₁ ++ (a j ++ h.rope l₂)) = some a') :
    ∃ h' it', ciInsert h it (h.slots j) = .ok (h', it') ∧ ∃ c', (h'.hold j none).Shows c' a' := by
  obtain ⟨hij, -, rfl⟩ := join_eq hj
  obtain ⟨h', it', hrun, hs'⟩ := hs.insert hij ha
  exact ⟨h', it', hrun, _, hs'⟩

/-- **`gabs_pbuf_chain_front`.** -/
theorem chainFront_gives (hs : h.Shows c a) (hj : a.join i j (a j ++ a i) = some a') :
    Gives (h.op (.chainFront i j)) a' := by
  rw [← hs.rope i] at hj
  obtain ⟨h', it', hrun, c', hs'⟩ := hs.insert_gives (ciInit_at (hs.chain i)) hj
  refine ⟨_, c', ?_, hs'⟩
  simp only [Heap.op, Heap.call, gabsPbufChainFront, hrun, bind, Except.bind]

/-- **`gabs_pbuf_chain_back`.** -/
theorem chainBack_gives (hs : h.Shows c a) (hj : a.join i j (a i ++ a j) = some a') :
    Gives (h.op (.chainBack i j)) a' := by
  obtain ⟨it, hloop, ha⟩ := backLoop_eq (ciInit_at (hs.chain i)) ((hs.chain i).length_lt hs.sound)
  rw [← hs.rope i, ← List.append_nil (a j)] at hj
  obtain ⟨h', it', hrun, c', hs'⟩ := hs.insert_gives ha hj
  refine ⟨_, c', ?_, hs'⟩
  simp only [Heap.op, Heap.call, gabsPbufChainBack, hloop, hrun, bind, Except.bind]

/-- **`gabs_pbuf_chain_at`**, at a boundary of pieces. -/
theorem chainAt_gives (hs : h.Shows c a) (ht : (a i).size < 2 ^ 64) {offset : Nat} {s t : Rope UInt8}
    (hcut : (a i).cut offset = some (s, t))
    (hj : a.join i j (if offset = 0 then a j ++ a i else s ++ (a j ++ t)) = some a') :
    Gives (h.op (.chainAt i j offset)) a' := by
  by_cases hzero : offset = 0
  · rw [if_pos hzero] at hj
    have hfront := chainFront_gives hs hj
    have hsame : h.op (.chainAt i j offset) = h.op (.chainFront i j) := by
      simp only [Heap.op, Heap.call, gabsPbufChainAt, if_pos hzero]
    rwa [hsame]
  · rw [if_neg hzero] at hj
    obtain ⟨hst, hsize⟩ := Rope.cut_eq hcut
    obtain ⟨l₁, l₂, it, k, e, hloop, ha, hstop⟩ :=
      atLoop_eq (ciInit_at (hs.chain i)) ((hs.chain i).length_lt hs.sound) offset 0
    have htotal := hs.size i
    obtain ⟨hk, hle, hlast⟩ := hstop (Nat.zero_le _) (by omega)
    rw [Nat.zero_add] at hk
    rw [List.nil_append] at ha
    have hlive : ∀ g ∈ c i, ∃ x, h.frags g = some x := (hs.chain i).live
    have hrope : h.rope l₁ ++ h.rope l₂ = a i := by rw [← rope_append, ← e, hs.rope i]
    have hsize₁ : (h.rope l₁).size = h.total l₁ := rope_size fun g hg => hlive g (by simp [e, hg])
    -- The loop stops where the rope is cut.
    have hhead : ∀ p ∈ (h.rope l₂).head?, offset < (h.rope l₁).size + p.elems.length := by
      cases l₂ with
      | nil =>
        rw [rope_nil]
        rintro p ⟨⟩
      | cons g l₂ =>
        intro p hp
        obtain rfl : h.piece g = p := Option.some.inj hp
        obtain ⟨y, hy⟩ := hlive g (by simp [e])
        have hlt := hlast g rfl
        rw [size_of hy] at hlt
        rw [piece_length hy]
        omega
    have hoffset : (h.rope l₁).size = offset := by
      rw [hst] at hrope
      rcases List.append_eq_append_iff.mp hrope with ⟨m, rfl, hm⟩ | ⟨m, hm, rfl⟩
      · cases m with
        | nil => rw [List.append_nil] at hsize; exact hsize
        | cons p m =>
          rw [hm] at hhead
          have hlt := hhead p rfl
          rw [Rope.size_append, Rope.size_cons] at hsize
          omega
      · rw [hm, Rope.size_append] at hsize₁ ⊢
        omega
    have hpair := Rope.cut_split hoffset fun p hp => by
      have hlt := hhead p hp
      omega
    rw [hrope, hcut] at hpair
    cases hpair
    obtain ⟨h', it', hrun, c', hs'⟩ := hs.insert_gives ha hj
    refine ⟨_, c', ?_, hs'⟩
    have hassert : h.assert (decide (k = offset)) = .ok () := assert_of (by omega) h
    simp only [Heap.op, Heap.call, gabsPbufChainAt, if_neg hzero, hloop, hassert, hrun, bind, Except.bind]

/-! ## Filling -/

omit [DecidableEq ι] in
/-- Bytes are put behind those of a fragment. -/
theorem filled_piece (hx : h.Whole f x) (hle : data.length ≤ x.tailroom) :
    (h.filled f x data).piece f = (h.piece f).append data := by
  have hself := filled_frags h f x data
  have hcap := hx.cap_eq
  have hhead := hx.headroom
  have hbefore : x.addrs.map (h.filled f x data).byte = x.addrs.map h.byte := by
    apply List.map_congr_left
    intro q hq
    obtain ⟨o, ho, rfl⟩ := List.mem_map.mp hq
    apply store_byte_of_notMem
    rintro ⟨-, hlo, -⟩
    rw [List.mem_range] at ho
    simp only [Ptr.add] at hlo
    omega
  have hbehind : (x.room.take data.length).map (h.filled f x data).byte = data := by
    have hload := load_store (h.put f { x with size := x.size + data.length }) (x.data.add x.size) data
    rw [Frag.room, ← List.map_take, List.take_range, Nat.min_eq_left hle, List.map_map]
    exact hload
  have hfits : Frag.Fits { x with size := x.size + data.length } := by
    have hreserved := hx.fits.reserve_tail hle
    have hlt := hx.fits.cap
    rwa [wrap_of_lt (by omega)] at hreserved
  have htail : x.headroom + (x.size + data.length) + Frag.tailroom { x with size := x.size + data.length } = x.cap :=
    hfits.tailroom
  rw [piece_of hself, piece_of hx.frag, Frag.held, Frag.held, Piece.append, addrs_fill hle, List.map_append, hbefore,
    hbehind, Piece.mk.injEq]
  refine ⟨rfl, rfl, ?_⟩
  show Frag.tailroom { x with size := x.size + data.length } = x.tailroom - data.length
  omega

/-- **Bytes are put behind those of a fragment**, where it has room for them. -/
theorem Heap.Shows.filled (hs : h.Shows c a) (e : c i = l₁ ++ f :: l₂) (hx : h.Whole f x)
    (hle : data.length ≤ x.tailroom) :
    (h.filled f x data).Shows c (Function.update a i (h.rope l₁ ++ (h.piece f).append data :: h.rope l₂)) := by
  have hfits : Frag.Fits { x with size := x.size + data.length } := by
    have hreserved := hx.fits.reserve_tail hle
    have hlt := hx.fits.cap
    have hcap := hx.cap_eq
    rwa [wrap_of_lt (by omega)] at hreserved
  have hq : (x.data.add x.size).block = .own f := by rw [Ptr.add, hx.data]
  have hpiece := filled_piece hx hle
  rw [Heap.filled] at hpiece ⊢
  exact hs.write (y := { x with size := x.size + data.length }) e hx rfl rfl rfl hfits hq hpiece

/-- **The loop of `gabs_pbuf_put`** fills the pieces. -/
theorem Heap.Shows.puts (hs : h.Shows c a) (e : c i = l₁ ++ l) (data : List UInt8) :
    (h.puts l data).Shows c (Function.update a i (h.rope l₁ ++ Rope.fill data (h.rope l))) := by
  induction l generalizing h a l₁ data with
  | nil =>
    have hrope := hs.rope i
    rw [e, rope_append] at hrope
    rw [Heap.puts, rope_nil, Rope.fill]
    rw [rope_nil] at hrope
    rw [hrope, Function.update_eq_self]
    exact hs
  | cons f l ih =>
    obtain ⟨x, hx⟩ := hs.whole i f (by simp [e])
    have hlen : (data.take x.tailroom).length ≤ x.tailroom := by
      rw [List.length_take]
      exact Nat.min_le_left _ _
    have hs₁ := hs.filled e hx hlen
    have e₁ : c i = (l₁ ++ [f]) ++ l := by rw [e, List.append_assoc]; rfl
    have hr₁ : Function.update a i (h.rope l₁ ++ (h.piece f).append (data.take x.tailroom) :: h.rope l) i =
        (h.rope l₁ ++ [(h.piece f).append (data.take x.tailroom)]) ++ h.rope l := by
      rw [Function.update_self, List.append_assoc]
      rfl
    obtain ⟨hleft, hright⟩ := hs₁.rope_split e₁ hr₁ (by simp [Heap.rope])
    have hrest := ih hs₁ e₁ (data.drop x.tailroom)
    have hroom : (h.piece f).room = x.tailroom := by rw [piece_of hx.frag]; rfl
    rw [puts_cons hx.frag, rope_cons, Rope.fill, hroom]
    rw [hleft, hright, Function.update_idem, List.append_assoc] at hrest
    exact hrest

/-- **`gabs_pbuf_put`.** -/
theorem put_gives (hs : h.Shows c a) (i : ι) (data : List UInt8) :
    Gives (h.op (.put i data)) (Function.update a i (Rope.fill data (a i))) := by
  have hfits : ∀ f ∈ c i, ∀ x, h.frags f = some x → x.Fits := by
    intro f hf x hx
    obtain ⟨y, hy⟩ := hs.whole i f hf
    obtain rfl : y = x := Option.some.inj (hy.frag.symm.trans hx)
    exact hy.fits
  have hopen : h.Open (c i) := by
    intro f hf x hx
    obtain ⟨y, hy⟩ := hs.whole i f hf
    obtain rfl : y = x := Option.some.inj (hy.frag.symm.trans hx)
    have hcap := hy.cap_eq
    apply hy.touch_add
    omega
  have hbased : h.Based (c i) data.length := by
    intro l₁ f l₂ e _ x hx
    obtain ⟨y, hy⟩ := hs.whole i f (by simp [e])
    obtain rfl : y = x := Option.some.inj (hy.frag.symm.trans hx)
    right
    rw [hy.data]
    simp
  have hrun := (putLoop_eq (hs.chain i) ((hs.chain i).length_lt hs.sound) hfits hopen (.slot i) data).1 hbased
  have hnil : c i = [] ++ c i := rfl
  have hputs := hs.puts hnil data
  rw [rope_nil, List.nil_append, hs.rope i] at hputs
  exact ⟨_, _, hrun, hputs⟩

/-! ## At the `k`-th fragment -/

omit [DecidableEq ι] in
/-- An iterator that is moved on. -/
theorem ciSteps_at (ha : h.At i l₁ (l ++ l₂) it) :
    ∃ it', ciSteps h l.length it = .ok it' ∧ h.At i (l₁ ++ l) l₂ it' := by
  induction l generalizing l₁ it with
  | nil => exact ⟨it, rfl, by rwa [List.append_nil]⟩
  | cons f l ih =>
    obtain ⟨it₁, hnext, ha₁⟩ := ciNext_at ha
    obtain ⟨it', hrun, ha'⟩ := ih ha₁
    refine ⟨it', ?_, by rwa [List.append_assoc] at ha'⟩
    rw [List.length_cons, ciSteps, hnext]
    exact hrun

omit [DecidableEq ι] in
/-- **The iterator of the client**, at a position of its buffer. -/
theorem Heap.Shows.seek (hs : h.Shows c a) (hk : k ≤ (a i).length) :
    ∃ l₁ l₂ it, h.seek i k = .ok it ∧ h.At i l₁ l₂ it ∧ h.rope l₁ = (a i).take k ∧ h.rope l₂ = (a i).drop k := by
  have hlen : ((c i).take k).length = k := by
    rw [List.length_take, hs.length i]
    omega
  have hstart : h.At i [] ((c i).take k ++ (c i).drop k) (ciInit h (.slot i)) := by
    rw [List.take_append_drop]
    exact ciInit_at (hs.chain i)
  obtain ⟨it, hrun, ha⟩ := ciSteps_at hstart
  rw [hlen] at hrun
  rw [List.nil_append] at ha
  refine ⟨_, _, it, hrun, ha, ?_, ?_⟩
  · rw [← hs.rope i, Heap.rope, Heap.rope, List.map_take]
  · rw [← hs.rope i, Heap.rope, Heap.rope, List.map_drop]

/-- **`gabs_pbuf_ci_insert`.** -/
theorem insert_gives (hs : h.Shows c a) (hk : k ≤ (a i).length)
    (hj : a.join i j ((a i).take k ++ (a j ++ (a i).drop k)) = some a') : Gives (h.op (.insert i j k)) a' := by
  obtain ⟨l₁, l₂, it, hseek, ha, htake, hdrop⟩ := hs.seek hk
  rw [← htake, ← hdrop] at hj
  obtain ⟨h', it', hrun, c', hs'⟩ := hs.insert_gives ha hj
  refine ⟨_, c', ?_, hs'⟩
  simp only [Heap.op, Heap.call, hseek, hrun, bind, Except.bind]

/-- **`gabs_pbuf_ci_remove`.** -/
theorem remove_gives (hs : h.Shows c a) (hk : k < (a i).length) :
    Gives (h.op (.remove i k)) (Function.update a i ((a i).take k ++ (a i).drop (k + 1))) := by
  obtain ⟨l₁, l₂, it, hseek, ha, htake, hdrop⟩ := hs.seek (Nat.le_of_lt hk)
  cases l₂ with
  | nil =>
    have hlen := congrArg List.length hdrop
    rw [rope_nil, List.length_nil, List.length_drop] at hlen
    omega
  | cons f l₂ =>
    have htail : h.rope l₂ = (a i).drop (k + 1) := by rw [← List.tail_drop, ← hdrop, rope_cons, List.tail_cons]
    obtain ⟨it', hrun, -⟩ := ciRemove_at hs.sound ha
    have hs' := hs.remove ha
    rw [htake, htail] at hs'
    refine ⟨_, _, ?_, hs'⟩
    simp only [Heap.op, Heap.call, hseek, hrun, bind, Except.bind]

/-- **`gabs_pbuf_ci_detach`.** -/
theorem detach_gives (hs : h.Shows c a) (hk : k ≤ (a i).length) :
    Gives (h.op (.detach i k)) (Function.update a i ((a i).take k)) := by
  obtain ⟨l₁, l₂, it, hseek, ha, htake, -⟩ := hs.seek hk
  obtain ⟨hrun, -⟩ := ciDetach_at hs.sound ha
  have hs' := hs.detach ha
  rw [htake] at hs'
  refine ⟨_, _, ?_, hs'⟩
  simp only [Heap.op, Heap.call, hseek, hrun, bind, Except.bind]

/-- The fragment at which a piece is edited. -/
theorem Heap.Shows.edited (hs : h.Shows c a) {ok : Piece UInt8 → Bool} {g : Piece UInt8 → Piece UInt8}
    (he : a.edit i k ok g = some a') :
    ∃ l₁ f l₂ lp x, h.seek i k = .ok ⟨some f, lp⟩ ∧ c i = l₁ ++ f :: l₂ ∧ h.Whole f x ∧
      ok (h.piece f) = true ∧ Function.update a i (h.rope l₁ ++ g (h.piece f) :: h.rope l₂) = a' := by
  rw [Ropes.edit] at he
  obtain ⟨p, hp, he⟩ := Option.bind_eq_some_iff.mp he
  obtain ⟨hk, hget⟩ := List.getElem?_eq_some_iff.mp hp
  split at he
  · rename_i hok
    obtain ⟨l₁, l₂, it, hseek, ha, htake, hdrop⟩ := hs.seek (Nat.le_of_lt hk)
    have hcons := List.drop_eq_getElem_cons hk
    rw [hget, ← hdrop] at hcons
    cases l₂ with
    | nil => cases hcons
    | cons f l₂ =>
      obtain ⟨hpiece, htail⟩ : h.piece f = p ∧ h.rope l₂ = (a i).drop (k + 1) := List.cons.inj hcons
      have e := hs.at_eq ha
      obtain ⟨x, hx⟩ := hs.whole i f (by simp [e])
      obtain ⟨-, hset⟩ := become_eq he
      obtain ⟨cur, lp⟩ := it
      obtain rfl : cur = some f := ha.cur
      refine ⟨l₁, f, l₂, lp, x, hseek, e, hx, by rwa [hpiece], ?_⟩
      rw [← hset, List.set_eq_take_append_cons_drop, if_pos hk, htake, htail, hpiece]
  · cases he

/-- **`gabs_pbuf_ci_reserve_tail`**, and the bytes that the client writes. -/
theorem reserveTail_gives (hs : h.Shows c a)
    (he : a.edit i k (fun p => data.length ≤ p.room) (fun p => p.append data) = some a') :
    Gives (h.op (.reserveTail i k data)) a' := by
  obtain ⟨l₁, f, l₂, lp, x, hseek, e, hx, hok, rfl⟩ := hs.edited he
  have hroom : (h.piece f).room = x.tailroom := by rw [piece_of hx.frag]; rfl
  have hle : data.length ≤ x.tailroom := by
    rw [← hroom]
    exact of_decide_eq_true hok
  have hcap := hx.cap_eq
  have hrun : ciReserveTail h ⟨some f, lp⟩ data.length = _ := ciReserveTail_of hx.fits hx.frag hle
  have htouch : (h.put f { x with size := x.size + data.length }).touch (x.data.add x.size) data.length = .ok () := by
    have hfree : h.touch (x.data.add x.size) data.length = .ok () := by
      apply hx.touch_add
      omega
    exact (touch_filled hx.frag data _ _).trans hfree
  refine ⟨_, _, ?_, hs.filled e hx hle⟩
  simp only [Heap.op, hseek, hrun, Heap.write, htouch, bind, Except.bind]
  rfl

omit [DecidableEq ι] in
/-- A fragment in which `n` bytes are reserved before the others. -/
theorem Heap.Whole.fits_push (hx : h.Whole f x) (hn : n ≤ x.headroom) :
    Frag.Fits { x with data := ⟨.own f, x.data.off - n⟩, size := x.size + n } := by
  have hcap := hx.cap_eq
  have hhead := hx.headroom
  refine ⟨by rw [hx.base], ?_, ?_, hx.fits.cap⟩
  · rw [hx.base]
    exact Nat.zero_le _
  · show x.data.off - n - x.base.off + (x.size + n) ≤ x.cap
    rw [hx.base]
    simp only
    omega

omit [DecidableEq ι] in
/-- `gabs_pbuf_ci_reserve_head`. -/
theorem ciReserveHead_of (hx : h.Whole f x) (hn : n ≤ x.headroom) (lp : Link ι) :
    ciReserveHead h ⟨some f, lp⟩ n = .ok (h.put f { x with data := ⟨.own f, x.data.off - n⟩, size := x.size + n },
      ⟨.own f, x.data.off - n⟩) := by
  have hok : h.assert (decide (n ≤ x.headroom)) = .ok () := assert_of hn h
  have hcap := hx.cap_eq
  have hlt := hx.fits.cap
  have hhead := hx.headroom
  have hblock : x.data.block = .own f := by rw [hx.data]
  simp only [ciReserveHead, deref_of hx.frag, bind, Except.bind, hok, modify_of hx.frag]
  rw [sub_of_le (by omega), hblock, wrap_of_lt (by omega)]

omit [DecidableEq ι] in
/-- Bytes are put before those of a fragment. -/
theorem pushed_piece (hx : h.Whole f x) (hle : data.length ≤ x.headroom) :
    ((h.put f { x with data := ⟨.own f, x.data.off - data.length⟩, size := x.size + data.length }).store
      ⟨.own f, x.data.off - data.length⟩ data).piece f = (h.piece f).push data := by
  set y : Frag := { x with data := ⟨.own f, x.data.off - data.length⟩, size := x.size + data.length } with hy
  set h₁ := (h.put f y).store ⟨.own f, x.data.off - data.length⟩ data with hh₁
  have hself : h₁.frags f = some y := Function.update_self ..
  have hcap := hx.cap_eq
  have hhead := hx.headroom
  have hroom := hx.fits.room
  have hfits : y.Fits := hx.fits_push hle
  have hoff : y.headroom = x.headroom - data.length := by
    rw [hfits.headroom, hhead]
    show x.data.off - data.length - x.base.off = _
    rw [hx.base]
    simp only
    omega
  have htail : y.headroom + (x.size + data.length) + y.tailroom = x.cap := hfits.tailroom
  have hsame : y.tailroom = x.tailroom := by omega
  have haddrs : y.addrs = (List.range data.length).map (Ptr.add ⟨.own f, x.data.off - data.length⟩) ++ x.addrs := by
    rw [Frag.addrs, hy, Nat.add_comm, List.range_add, List.map_append, List.map_map, Frag.addrs]
    congr 1
    apply List.map_congr_left
    intro o _
    rw [Function.comp_apply, hx.data]
    simp only [Ptr.add, Ptr.mk.injEq, true_and]
    omega
  have hfront : ((List.range data.length).map (Ptr.add ⟨.own f, x.data.off - data.length⟩)).map h₁.byte = data := by
    have hload := load_store (h.put f y) ⟨.own f, x.data.off - data.length⟩ data
    rw [List.map_map]
    exact hload
  have hbehind : x.addrs.map h₁.byte = x.addrs.map h.byte := by
    apply List.map_congr_left
    intro q hq
    obtain ⟨o, -, rfl⟩ := List.mem_map.mp hq
    apply store_byte_of_notMem
    rintro ⟨-, -, hhi⟩
    simp only [Ptr.add] at hhi
    omega
  rw [piece_of hself, piece_of hx.frag, Frag.held, Frag.held, Piece.push, haddrs, List.map_append, hfront,
    hbehind, hoff, hsame]

/-- **`gabs_pbuf_ci_reserve_head`**, and the bytes that the client writes. -/
theorem reserveHead_gives (hs : h.Shows c a)
    (he : a.edit i k (fun p => data.length ≤ p.head) (fun p => p.push data) = some a') :
    Gives (h.op (.reserveHead i k data)) a' := by
  obtain ⟨l₁, f, l₂, lp, x, hseek, e, hx, hok, rfl⟩ := hs.edited he
  have hroom : (h.piece f).head = x.headroom := by rw [piece_of hx.frag]; rfl
  have hle : data.length ≤ x.headroom := by
    rw [← hroom]
    exact of_decide_eq_true hok
  have hcap := hx.cap_eq
  have hhead := hx.headroom
  have hrun := ciReserveHead_of hx hle lp
  set y : Frag := { x with data := ⟨.own f, x.data.off - data.length⟩, size := x.size + data.length } with hy
  have hfits : y.Fits := hx.fits_push hle
  have hself : (h.put f y).frags f = some y := Function.update_self ..
  have hwhole : (h.put f y).Whole f y := ⟨hself, hx.base, hfits, hx.block⟩
  have htouch : (h.put f y).touch ⟨.own f, x.data.off - data.length⟩ data.length = .ok () := by
    apply hwhole.touch
    show _ ≤ x.cap
    omega
  have hs' := hs.write (q := ⟨.own f, x.data.off - data.length⟩) e hx (y := y) rfl rfl rfl hfits rfl
    (pushed_piece hx hle)
  refine ⟨_, _, ?_, hs'⟩
  simp only [Heap.op, hseek, hrun, Heap.write, htouch, bind, Except.bind]

/-- **`gabs_pbuf_ci_release_head`.** -/
theorem releaseHead_gives (hs : h.Shows c a)
    (he : a.edit i k (fun p => n ≤ p.elems.length) (fun p => p.advance n) = some a') :
    Gives (h.op (.releaseHead i k n)) a' := by
  obtain ⟨l₁, f, l₂, lp, x, hseek, e, hx, hok, rfl⟩ := hs.edited he
  have hle : n ≤ x.size := by
    rw [← piece_length hx.frag]
    exact of_decide_eq_true hok
  have hfits : (x.advance n).Fits := by
    have hrel := hx.fits.release_head hle
    rwa [sub_of_le hle] at hrel
  have hheld : (x.advance n).held h.byte = (h.piece f).advance n := by
    rw [held_advance hx.fits hle, piece_of hx.frag]
  refine ⟨_, _, ?_, hs.adjust e hx rfl rfl rfl hfits hheld⟩
  simp only [Heap.op, hseek, ciReleaseHead_of hx.frag hle, bind, Except.bind]

/-- **`gabs_pbuf_ci_release_tail`.** -/
theorem releaseTail_gives (hs : h.Shows c a)
    (he : a.edit i k (fun p => n ≤ p.elems.length) (fun p => p.resize (p.elems.length - n)) = some a') :
    Gives (h.op (.releaseTail i k n)) a' := by
  obtain ⟨l₁, f, l₂, lp, x, hseek, e, hx, hok, rfl⟩ := hs.edited he
  have hlen := piece_length hx.frag
  have hle : n ≤ x.size := by
    rw [← hlen]
    exact of_decide_eq_true hok
  have hfits : (x.resize (x.size - n)).Fits := by
    have hrel := hx.fits.release_tail hle
    rwa [sub_of_le hle] at hrel
  have hheld : (x.resize (x.size - n)).held h.byte = (h.piece f).resize ((h.piece f).elems.length - n) := by
    rw [held_resize hx.fits (Nat.sub_le _ _), hlen, piece_of hx.frag]
  obtain ⟨q, hrun⟩ := ciReleaseTail_of hx.frag hle lp
  refine ⟨_, _, ?_, hs.adjust e hx rfl rfl rfl hfits hheld⟩
  simp only [Heap.op, hseek, hrun, bind, Except.bind]

end Gabs.Pbuf
