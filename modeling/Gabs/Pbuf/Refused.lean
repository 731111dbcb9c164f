import Gabs.Pbuf.Made
import Gabs.Pbuf.Ranges

/-!
# Packet buffers: a view under allocation failure

- `Heap.spans`, `Heap.pieces`: the fragments that a view of a range needs;
- `viewLoop_short`: where an allocation fails, the loop of `gabs_pbuf_view` leaves a view that is too short;
- `view_whole`: a view without assertions is whole or none exactly when all of its allocations succeed, or the first
  one fails.
-/

namespace Gabs.Pbuf

variable {ι : Type} {h : Heap ι} {p v : Option Nat} {f g k n offset size : Nat} {x : Frag} {l l₁ l₂ m : List Nat}

/-- The fragments from the first of `l` on that hold its first `size` bytes: as many of them. -/
def Heap.spans (h : Heap ι) (size : Nat) : List Nat → Nat
  | [] => 0
  | f :: l => if size = 0 then 0 else 1 + h.spans (size - h.size f) l

/-- The fragments of a view: one for the fragment that `buf_seek` finds, `bytes` having been passed before `l`, and one
for each fragment behind it that is in the range. -/
def Heap.pieces (h : Heap ι) (offset size : Nat) : List Nat → Nat → Nat
  | [], _ => 0
  | f :: l, bytes =>
    if offset = 0 ∨ offset < wrap (bytes + h.size f) then 1 + h.spans (offset - bytes + size - h.size f) l
    else h.pieces offset size l (wrap (bytes + h.size f))

theorem spans_cons (hpos : size ≠ 0) : h.spans size (f :: l) = 1 + h.spans (size - h.size f) l := if_neg hpos

theorem spans_congr {h' : Heap ι} (hl : ∀ f ∈ l, h'.frags f = h.frags f) (size : Nat) :
    h'.spans size l = h.spans size l := by
  induction l generalizing size with
  | nil => rfl
  | cons f l ih =>
    unfold Heap.spans
    rw [size_congr (hl f List.mem_cons_self), ih fun c hc => hl c (List.mem_cons_of_mem _ hc)]

/-- The fragments needed are those from the place on where the loop of `buf_seek` stops. -/
theorem pieces_eq (hc : h.Chain p l) {bytes : Nat} {lp lp' : Link ι}
    (hseek : seekLoop h offset n ⟨p, lp⟩ bytes = .ok (⟨some f, lp'⟩, k)) (hf : h.Chain (some f) (f :: m)) (size : Nat) :
    h.pieces offset size l bytes = 1 + h.spans (offset - k + size - h.size f) m := by
  induction l generalizing p n bytes lp with
  | nil =>
    cases hc.path
    cases n <;> cases hseek
  | cons g l ih =>
    obtain ⟨x, hx⟩ := hc.live g List.mem_cons_self
    obtain rfl : p = some g := hc.head
    cases n with
    | zero => cases hseek
    | succ n =>
      rw [seekLoop_cons hx] at hseek
      unfold Heap.pieces
      rw [size_of hx]
      by_cases hstop : offset = 0 ∨ offset < wrap (bytes + x.size)
      · rw [if_pos hstop] at hseek
        cases hseek
        obtain rfl : l = m := (List.cons.inj (hc.unique hf)).2
        rw [if_pos hstop, size_of hx]
      · rw [if_neg hstop] at hseek
        rw [if_neg hstop]
        exact ih (hc.tail hx) hseek

/-! ## A refused allocation -/

/-- `gabs_pbuf_new_ro`, when its allocation fails and assertions are compiled out. -/
theorem newRo_refused (hd : h.ndebug = true) (hg : h.grants h.asked = false) (alloc : Nat) (data : Ptr) (size : Nat) :
    gabsPbufNewRo h alloc data size = .ok (h.refused sizeofFrag, none) := by
  have hpass : ∀ h' : Heap ι, h'.ndebug = true → h'.assert false = .ok () := fun h' hd' => by simp [Heap.assert, hd']
  simp [gabsPbufNewRo, gabsPbufNew, hg, bind, Except.bind, gabsPbufOkay, hpass, hd, Heap.refused]
  rfl

/-- The next `n` allocations and the one before them. -/
theorem granted_succ : (∀ k < 1 + n, h.grants (h.asked + k) = true) ↔
    h.grants h.asked = true ∧ ∀ k < n, h.grants (h.asked + 1 + k) = true := by
  rw [Nat.add_comm 1 n, Nat.forall_lt_succ_left]
  simp [Nat.add_assoc, Nat.add_comm 1]

variable [DecidableEq ι]

/-- One turn of the loop of `gabs_pbuf_view`, whose allocation fails. -/
theorem viewLoop_refused {f' : Nat} (hw : h.Viewing f (f' :: l) v m g) (hd : h.ndebug = true) (hpos : size ≠ 0)
    (hg : h.grants h.asked = false) (alloc : Nat) (lp lp' : Link ι) :
    viewLoop alloc (n + 1) h ⟨some f, lp⟩ ⟨some g, lp'⟩ size = .ok (h.refused sizeofFrag) := by
  obtain ⟨x, hx⟩ := hw.source.live f List.mem_cons_self
  obtain ⟨y, hy⟩ := hw.source.live f' (by simp)
  have hnext : x.next = some f' := (hw.source.tail hx).head
  have hpass : (h.refused sizeofFrag).assert false = .ok () := by simp [Heap.assert, Heap.refused, hd]
  simp only [viewLoop, if_neg hpos, ciNext_of hx, hnext, ciSize_of hy, ciData_of hy, bind, Except.bind,
    newRo_refused hd hg, gabsPbufOkay, Option.isSome_none, Bool.not_false, if_true, hpass]

/-- A turn adds to the view what it takes from the range. -/
theorem extended_total (hs : h.Sound) (hv : h.Chain v (m ++ [g])) (hx : x.next = none) :
    (h.extended g x).total (m ++ [g] ++ [h.asked]) = h.total (m ++ [g]) + x.size := by
  have hlen := congrArg List.length (extended_addrs hs hv x)
  rwa [List.length_append, length_addrs hv.live, addrs_length, length_addrs (hv.extended hs hx).live] at hlen

/-- **Where an allocation fails**, the loop leaves a view that is too short. -/
theorem viewLoop_short (hw : h.Viewing f l v m g) (hd : h.ndebug = true) (alloc : Nat) (hn : l.length < n)
    (hle : size ≤ h.total l) (lp lp' : Link ι) :
    ∃ h' t, viewLoop alloc n h ⟨some f, lp⟩ ⟨some g, lp'⟩ size = .ok h' ∧ h'.Sound ∧ h'.Chain v (m ++ [g] ++ t) ∧
      h'.total (m ++ [g] ++ t) ≤ h.total (m ++ [g]) + size ∧
      (h'.total (m ++ [g] ++ t) = h.total (m ++ [g]) + size ↔
        ∀ k < h.spans size l, h.grants (h.asked + k) = true) := by
  induction l generalizing h f m g n size lp lp' with
  | nil =>
    obtain ⟨n, rfl⟩ := exists_fuel hn
    obtain rfl : size = 0 := Nat.le_zero.mp hle
    refine ⟨h, [], rfl, hw.sound, ?_, ?_, ?_⟩
    · rw [List.append_nil]
      exact hw.view
    · simp
    · simp [Heap.spans]
  | cons f' l ih =>
    obtain ⟨n, rfl⟩ := exists_fuel hn
    rcases Nat.eq_zero_or_pos size with rfl | hpos
    · refine ⟨h, [], rfl, hw.sound, ?_, ?_, ?_⟩
      · rw [List.append_nil]
        exact hw.view
      · simp
      · simp [Heap.spans]
    · have hne : size ≠ 0 := Nat.ne_of_gt hpos
      by_cases hg : h.grants h.asked = true
      · obtain ⟨y, hy⟩ := hw.source.live f' (by simp)
        have hstep := viewLoop_step (n := n) hw hy hne hg alloc lp lp'
        set x := Frag.over y.data (min y.size size) alloc with hx
        have hsame : ∀ c ∈ l, (h.extended g x).frags c = h.frags c := fun c hc => hw.same x (List.mem_cons_of_mem _ hc)
        have hrest : size - min y.size size ≤ (h.extended g x).total l := by
          rw [total_cons, size_of hy] at hle
          rw [total_congr hsame]
          omega
        obtain ⟨h', t, hloop, hs', hchain, hless, hiff⟩ :=
          ih (hw.step rfl) hd (Nat.lt_of_succ_lt_succ hn) hrest (.next f) (.next g)
        have hsum : (h.extended g x).total (m ++ [g] ++ [h.asked]) + (size - min y.size size) =
            h.total (m ++ [g]) + size := by
          have hsize : x.size = min y.size size := rfl
          rw [extended_total hw.sound hw.view rfl, hsize]
          omega
        have hspans : (h.extended g x).spans (size - min y.size size) l = h.spans (size - h.size f') l := by
          rw [spans_congr hsame, size_of hy, show size - min y.size size = size - y.size by omega]
        rw [hsum] at hless hiff
        rw [List.append_assoc (m ++ [g])] at hchain hless hiff
        refine ⟨h', h.asked :: t, hstep.trans hloop, hs', hchain, hless, hiff.trans ?_⟩
        rw [hspans, spans_cons hne, granted_succ]
        exact (and_iff_right hg).symm
      · have hg' : h.grants h.asked = false := Bool.not_eq_true _ ▸ hg
        have hpos' : 0 < h.spans size (f' :: l) := by rw [spans_cons hne]; omega
        refine ⟨h.refused sizeofFrag, [], viewLoop_refused hw hd hne hg' alloc lp lp', ?_, ?_, ?_, ?_⟩
        · exact fun c y hy => Nat.lt_succ_of_lt (hw.sound c y hy)
        · rw [List.append_nil]
          exact hw.view.congr (fun _ _ => rfl) hw.view.live
        · rw [List.append_nil]
          exact Nat.le_add_right ..
        · rw [List.append_nil]
          constructor
          · intro e
            have hself : (h.refused sizeofFrag).total (m ++ [g]) = h.total (m ++ [g]) := rfl
            omega
          · intro hall
            exact absurd (hall 0 hpos') hg

/-! ## The view -/

/-- What a view may come back as: not okay, with no new fragment left, or okay with all of its `size` bytes. -/
def Heap.WholeOrNone (h h' : Heap ι) (view : Option Nat) (size : Nat) : Prop :=
  gabsPbufOkay view = false ∧ (∀ c, h.asked ≤ c → h'.frags c = none) ∨
    gabsPbufOkay view = true ∧ gabsPbufSize h' view = .ok size

/-- `gabs_pbuf_view`, when its first allocation fails. -/
theorem gabsPbufView_refused {lp : Link ι} (hd : h.ndebug = true) (hg : h.grants h.asked = false)
    (hseek : bufSeek h p offset = .ok (⟨some f, lp⟩, k)) (hx : h.frags f = some x) (size alloc : Nat) :
    gabsPbufView h p offset size alloc = .ok (h.refused sizeofFrag, none) := by
  simp only [gabsPbufView, hseek, bind, Except.bind, ciSize_of hx, ciData_of hx, newRo_refused hd hg, gabsPbufOkay,
    Option.isSome_none, Bool.not_false, if_true]

/-- `gabs_pbuf_view` from the fragment `f` on, when its first allocation succeeds: a buffer, of the right size exactly
when the other allocations succeed. -/
theorem view_short (hs : h.Sound) (hd : h.ndebug = true) (hg : h.grants h.asked = true) {lp : Link ι}
    (hseek : bufSeek h p offset = .ok (⟨some f, lp⟩, k)) (hc : h.Chain (some f) (f :: l)) (hlo : k ≤ offset)
    (hhi : offset ≤ k + h.size f) (hle : offset - k + size ≤ h.total (f :: l)) (hsize : size < 2 ^ 64) (alloc : Nat) :
    ∃ h' v, gabsPbufView h p offset size alloc = .ok (h', v) ∧ gabsPbufOkay v = true ∧
      (gabsPbufSize h' v = .ok size ↔
        ∀ j < 1 + h.spans (offset - k + size - h.size f) l, h.grants (h.asked + j) = true) := by
  obtain ⟨x, hx⟩ := hc.live f List.mem_cons_self
  rw [size_of hx] at hhi
  rw [total_cons, size_of hx] at hle
  have hrun := gabsPbufView_eq hseek hx hlo hhi hg size alloc
  set y := x.piece (offset - k) size alloc with hy
  have hw : (h.fresh sizeofFrag y).Viewing f l (some h.asked) [] h.asked := viewing_start hs hc rfl
  have hold : ∀ c ∈ l, (h.fresh sizeofFrag y).frags c = h.frags c := fun c hl =>
    fresh_frags_of_ne (hc.ne_asked hs (List.mem_cons_of_mem _ hl)) _ y
  have hrest : size - min (x.size - (offset - k)) size ≤ (h.fresh sizeofFrag y).total l := by
    rw [total_congr hold]
    omega
  obtain ⟨h', t, hloop, hs', hchain, hless, hiff⟩ :=
    viewLoop_short hw hd alloc (Nat.lt_of_succ_lt (hc.length_lt hs)) hrest lp .param
  have hfirst : (h.fresh sizeofFrag y).total ([] ++ [h.asked]) = min (x.size - (offset - k)) size := by
    rw [List.nil_append, total_cons, size_of (fresh_frags_self h _ y), total_nil]
    rfl
  have hsum : min (x.size - (offset - k)) size + (size - min (x.size - (offset - k)) size) = size := by omega
  rw [hfirst, hsum] at hless hiff
  refine ⟨h', some h.asked, ?_, rfl, ?_⟩
  · rw [hrun, hloop]
    rfl
  · rw [gabsPbufSize_wrap hs' hchain, wrap_of_lt (Nat.lt_of_le_of_lt hless hsize), granted_succ, and_iff_right hg,
      size_of hx, show offset - k + size - x.size = size - min (x.size - (offset - k)) size by omega,
      ← spans_congr hold]
    constructor
    · intro e
      exact hiff.mp (Except.ok.inj e)
    · intro hall
      rw [hiff.mpr hall]

/-- **A view without assertions is whole or none** exactly when its first allocation fails, or none does. -/
theorem view_whole_or_none (hs : h.Sound) (hc : h.Chain p l) (hd : h.ndebug = true) (hn : gabsPbufSize h p = .ok n)
    (ho : offset < n) (hle : offset + size ≤ n) (alloc : Nat) :
    (∃ h' v, gabsPbufView h p offset size alloc = .ok (h', v) ∧ h.WholeOrNone h' v size) ↔
      h.grants h.asked = false ∨ ∀ j < h.pieces offset size l 0, h.grants (h.asked + j) = true := by
  obtain rfl : wrap (h.total l) = n := by
    rw [gabsPbufSize_wrap hs hc] at hn
    exact Except.ok.inj hn
  obtain ⟨l₁, l₂, lp, rfl, hseek, hlo, hhi, hend⟩ :=
    seekLoop_stops hc (Nat.zero_le offset) (by decide) (.param : Link ι)
  rw [Nat.zero_add] at hseek hlo hhi
  have hsize : size < 2 ^ 64 := by
    have := wrap_lt (h.total (l₁ ++ l₂))
    omega
  cases l₂ with
  | nil =>
    rw [List.append_nil] at ho
    omega
  | cons f t =>
    have hbehind : h.Chain (some f) (f :: t) := hc.behind
    obtain ⟨x, hx⟩ := hbehind.live f List.mem_cons_self
    have hseek' := hseek h.fuel (hc.length_lt hs)
    cases hg : h.grants h.asked with
    | false =>
      refine iff_of_true ⟨_, _, gabsPbufView_refused hd hg hseek' hx size alloc, .inl ⟨rfl, ?_⟩⟩ (.inl rfl)
      intro c hle
      cases hc : h.frags c with
      | none => exact hc
      | some z => exact absurd (hs c z hc) (Nat.not_lt.mpr hle)
    | true =>
      obtain ⟨h', v, hrun, hv, hiff⟩ := view_short hs hd hg hseek' hbehind hlo (hhi f rfl)
        (range_left hle hlo) hsize alloc
      rw [pieces_eq hc hseek' hbehind, ← hiff]
      constructor
      · rintro ⟨h'', v', hrun', hview⟩
        rw [hrun] at hrun'
        cases hrun'
        rcases hview with ⟨hno, -⟩ | ⟨-, hsz⟩
        · exact absurd hv (by rw [hno]; nofun)
        · exact .inr hsz
      · rintro (hno | hsz)
        · cases hno
        · exact ⟨h', v, hrun, .inr ⟨hv, hsz⟩⟩

/-- The buffer of seven bytes, without assertions; the second of the next allocations fails. -/
def secondRefused : Heap (Fin 1) := { sevenBytes with ndebug := true, grants := fun k => decide (k ≠ 4) }

theorem secondRefused_sound : secondRefused.Sound := by
  have hs : sevenBytes.Sound := heapOf_sound _ _
  exact hs

theorem secondRefused_chain : secondRefused.Chain (some 0) [0, 1, 2] := chain_of_walk (n := 3) (by decide)

/-- A range in one fragment needs one allocation, which succeeds. -/
theorem view_whole_or_none_first :
    (∃ h' v, gabsPbufView secondRefused (some 0) 0 3 0 = .ok (h', v) ∧ secondRefused.WholeOrNone h' v 3) ↔
      secondRefused.grants 3 = false ∨
        ∀ j < secondRefused.pieces 0 3 [0, 1, 2] 0, secondRefused.grants (3 + j) = true :=
  view_whole_or_none secondRefused_sound secondRefused_chain rfl (n := 7) (by decide) (by decide)
    (by decide) 0

/-- **A view cut short**: the range of seven bytes comes back as an okay buffer of three. -/
theorem view_cut : gabsPbufSize secondRefused (some 0) = .ok 7 ∧
    ∃ h' v, gabsPbufView secondRefused (some 0) 0 7 0 = .ok (h', v) ∧ gabsPbufOkay v = true ∧
      gabsPbufSize h' v = .ok 3 ∧ ¬ secondRefused.WholeOrNone h' v 7 := by
  refine ⟨by decide, _, _, rfl, rfl, rfl, ?_⟩
  rintro (⟨hno, -⟩ | ⟨-, hsize⟩)
  · cases hno
  · cases hsize

end Gabs.Pbuf
