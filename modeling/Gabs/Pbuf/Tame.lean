import Gabs.Pbuf.Owned
import Gabs.Pbuf.Splice

/-!
# Packet buffers: the functions keep every reference counted

- `insert_owned`, `cut_owned`, `detach_owned`: the iterators;
- `gabsPbufShrink_owned`: shrinking;
- `gabsPbufNew_owned`, `gabsPbufView_owned`, `gabsPbufClone_owned`: making buffers, which the running call then holds.

No fragment that has been freed is accessed (`Tame`), also where a range is outside the buffer or an allocation fails.
-/

namespace Gabs.Pbuf

open Gabs.Lib

variable {ι : Type} {h : Heap ι} {i j : ι} {p v : Option Nat} {f g n : Nat} {x : Frag} {l l₁ l₂ m T : List Nat}
  {it : Ci ι}

/-- A failure other than an access to a freed fragment, and than a loop that does not end. -/
def Tame (e : Fault) : Prop := e ≠ .freed ∧ e ≠ .diverges

theorem tame_assertion : Tame .assertion := ⟨nofun, nofun⟩

theorem tame_null : Tame .null := ⟨nofun, nofun⟩

variable [DecidableEq ι]

/-! ## Inserting and removing -/

/-- Links of different places may be written in any order. -/
theorem link_comm {q r : Link ι} (hne : q ≠ r) (v w : Option Nat) : (h.link q v).link r w = (h.link r w).link q v := by
  cases q with
  | param => rfl
  | slot a =>
    cases r with
    | param | next => rfl
    | slot b =>
      have hab : a ≠ b := fun e => hne (by rw [e])
      simp only [Heap.link, Function.update_comm hab]
  | next a =>
    cases r with
    | param | slot => rfl
    | next b =>
      have hab : a ≠ b := fun e => hne (by rw [e])
      simp only [Heap.link, Function.update_of_ne hab, Function.update_of_ne (Ne.symm hab), Function.update_comm hab]

/-- A handle variable that another buffer is in. -/
theorem Heap.At.hold (ha : h.At i l₁ l₂ it) (hj : j ≠ i) (v : Option Nat) : (h.hold j v).At i l₁ l₂ it := by
  have hslot : (h.hold j v).slots i = h.slots i := Function.update_of_ne (Ne.symm hj) ..
  refine ⟨?_, ha.cur, ha.lastp⟩
  rw [hslot]
  exact ⟨ha.chain.path, ha.chain.live⟩

/-- **`gabs_pbuf_ci_insert`** of the buffer in another handle variable, which is consumed. -/
theorem insert_owned (ho : h.Owned T) (ha : h.At i l₁ l₂ it) (hj : j ≠ i) (hm : h.Chain (h.slots j) m)
    (hd : ∀ f ∈ m, f ∉ l₁ ++ l₂) : ∃ h' it', ciInsert h it (h.slots j) = .ok (h', it') ∧ (h'.hold j none).Owned T := by
  have ho₁ := Heap.Owned.hold (v := none) ho j
  rcases List.eq_nil_or_concat m with rfl | ⟨m, g, rfl⟩
  · have hnone : h.slots j = none := hm.head
    obtain ⟨it', hrun⟩ := ciInsert_none ha
    rw [hnone] at ho₁ ⊢
    exact ⟨h, it', hrun, ho₁⟩
  · rw [List.concat_eq_append] at hm hd
    obtain ⟨it', hrun, -⟩ := ciInsert_at ho.sound ha hm (by simp) hd
    refine ⟨_, it', hrun, ?_⟩
    obtain ⟨x, hx⟩ := hm.live g (by simp)
    have hg : g ∉ l₁ ++ l₂ := hd g (by simp)
    have hg₁ : g ∉ l₁ := fun h => hg (List.mem_append_left _ h)
    have hg₂ : g ∉ l₂ := fun h => hg (List.mem_append_right _ h)
    -- The handle variable is emptied first, the position written next, and the end of the buffer last.
    have hne : (Link.next g : Link ι) ≠ .slot j := nofun
    have horder : (h.spliced i l₁ l₂ (m ++ [g])).hold j none =
        ((h.hold j none).link (lastp i l₁) (h.slots j)).link (.next g) l₂.head? := by
      calc (h.spliced i l₁ l₂ (m ++ [g])).hold j none
        _ = ((h.link (.next g) l₂.head?).link (lastp i l₁) (h.slots j)).link (.slot j) none := by
          rw [Heap.spliced, lastp_concat, ← hm.head]
          rfl
        _ = ((h.link (lastp i l₁) (h.slots j)).link (.slot j) none).link (.next g) l₂.head? := by
          rw [link_comm (lastp_ne hg₁).symm, link_comm hne]
        _ = ((h.hold j none).link (lastp i l₁) (h.slots j)).link (.next g) l₂.head? := by
          rw [link_comm (lastp_slot_ne hj l₁)]
          rfl
    have ha₁ := ha.hold hj none
    have hm₁ : (h.hold j none).Chain (h.slots j) (m ++ [g]) := ⟨hm.path, hm.live⟩
    have ho₂ := ho₁.redirect ha₁ hm₁ fun f hf h => hd f hf (List.mem_append_left _ h)
    have hx₂ : ((h.hold j none).link (lastp i l₁) (h.slots j)).frags g = some x := by
      rw [link_frags_of_ne (lastp_ne hg₁)]
      exact hx
    have hl₂ : ((h.hold j none).link (lastp i l₁) (h.slots j)).Chain l₂.head? l₂ :=
      ha₁.chain.behind.link fun f hf => lastp_ne fun h => (List.nodup_append.mp ha.chain.path.nodup).2.2 f h f hf rfl
    have ho₃ := ho₂.relink hx₂ hl₂ hg₂
    rw [hm.next_last hx] at ho₃
    rw [horder]
    exact ho₃

/-- **`gabs_pbuf_ci_remove`.** -/
theorem cut_owned (ho : h.Owned T) (ha : h.At i l₁ (f :: l₂) it) : ((h.link (lastp i l₁) l₂.head?).cut f).Owned T := by
  obtain ⟨x, hx⟩ := ha.chain.live f (by simp)
  have hnd := List.nodup_append.mp ha.chain.path.nodup
  have hf₁ : f ∉ l₁ := fun h => hnd.2.2 f h f (by simp) rfl
  have hf₂ : f ∉ l₂ := (List.nodup_cons.mp hnd.2.1).1
  have hbehind := ha.chain.behind.tail hx
  have hnext : x.next = l₂.head? := hbehind.head
  rw [hnext] at hbehind
  -- The fragment is taken off what follows it first.
  have ho₁ := Heap.Owned.relink (v := none) ho hx chain_nil nofun
  rw [hnext] at ho₁
  have hc₁ : (h.link (.next f) none).Chain (h.slots i) (l₁ ++ [f]) := ha.chain.redirect chain_nil nofun
  have ha₁ : (h.link (.next f) none).At i l₁ [f] ⟨some f, lastp i l₁⟩ := ⟨hc₁, rfl, rfl⟩
  have hm₁ : (h.link (.next f) none).Chain l₂.head? l₂ := hbehind.link fun g hg => by rintro ⟨⟩; exact hf₂ hg
  have ho₂ := ho₁.redirect ha₁ hm₁ fun g hg h => hnd.2.2 g h g (List.mem_cons_of_mem _ hg) rfl
  rw [← link_comm (lastp_ne hf₁)] at ho₂
  have hx₂ : ((h.link (lastp i l₁) l₂.head?).link (.next f) none).frags f = some { x with next := none } := by
    rw [link_frags, if_pos rfl, link_frags_of_ne (lastp_ne hf₁), hx, Option.map_some]
  have ho₃ := Heap.Owned.drop (T := T) ho₂ hx₂
  rwa [Option.toList_none, List.nil_append, ite_self] at ho₃

/-- **`gabs_pbuf_ci_detach`.** -/
theorem detach_owned (ho : h.Owned T) (ha : h.At i l₁ l₂ it) : ((h.link (lastp i l₁) none).unref l₂).Owned T := by
  have ho₁ := Heap.Owned.redirect (p := none) ho ha chain_nil nofun
  apply ho₁.unref
  exact ha.chain.behind.link fun f hf => lastp_ne fun h => (List.nodup_append.mp ha.chain.path.nodup).2.2 f h f hf rfl

/-! ## Shrinking -/

/-- **The first loop of `gabs_pbuf_shrink`**, wherever it stops. -/
theorem dropLoop_owned (ho : h.Owned T) (ha : h.At i [] l it) (hn : l.length < n) (offset bytes : Nat) :
    Upto Tame (dropLoop offset n h it bytes) fun r => r.1.Owned T ∧ ∃ l', r.1.At i [] l' r.2.1 := by
  induction l generalizing h it n bytes with
  | nil =>
    obtain ⟨n, rfl⟩ := exists_fuel hn
    rw [dropLoop, if_pos ha.eoi]
    exact ⟨ho, [], ha⟩
  | cons f l ih =>
    obtain ⟨n, rfl⟩ := exists_fuel hn
    obtain ⟨x, hx⟩ := ha.chain.live f (by simp)
    rw [dropLoop, if_neg ha.not_eoi, ciSize_at ha hx]
    refine upto_ite (fun _ => ⟨ho, f :: l, ha⟩) fun _ => ?_
    obtain ⟨it', hrun, ha'⟩ := ciRemove_at ho.sound ha
    rw [hrun]
    exact ih (cut_owned ho ha) ha' (Nat.lt_of_succ_lt_succ hn) _

omit [DecidableEq ι] in
theorem Heap.At.adjust (ha : h.At i l₁ l₂ it) (f : Nat) {k : Frag → Frag} (hk : ∀ x, (k x).next = x.next) :
    (h.adjust f k).At i l₁ l₂ it := ⟨ha.chain.adjust f hk, ha.cur, ha.lastp⟩

/-- **The second part of `gabs_pbuf_shrink`.** -/
theorem keep_owned (ho : h.Owned T) (ha : h.At i [] l it) (size : Nat) :
    Upto Tame (keep h it size) (Heap.Owned · T) := by
  rcases keep_eq ho.sound ha size with ⟨hkeep, -⟩ | ⟨a, f, t, rfl, hkeep, -⟩
  · rw [hkeep]
    exact ho
  · rw [hkeep, upto_ok, Heap.kept]
    obtain ⟨x, hx⟩ := ha.chain.live f (by simp)
    have hc : h.Chain (h.slots i) (a ++ f :: t) := ha.chain
    have ho₁ := ho.adjust (k := Frag.resize (size - h.total a)) hx rfl rfl
    have hx₁ := adjust_frags hx (Frag.resize (size - h.total a))
    have hft : f ∉ t := (List.nodup_cons.mp (List.nodup_append.mp hc.path.nodup).2.1).1
    have ht : (h.adjust f (Frag.resize (size - h.total a))).Chain x.next t := (hc.behind.tail hx).adjust f fun _ => rfl
    have ho₂ := Heap.Owned.relink (v := none) ho₁ hx₁ chain_nil (by simp)
    exact ho₂.unref (ht.link fun g hg => by rintro ⟨⟩; exact hft hg)

omit [DecidableEq ι] in
theorem ciReleaseHead_upto (hx : h.frags f = some x) (lp : Link ι) (n : Nat) :
    Upto Tame (ciReleaseHead h ⟨some f, lp⟩ n) fun r =>
      r.1 = h.adjust f fun x => { x with size := sub x.size n, data := x.data.add n } := by
  rw [ciReleaseHead, deref_of hx]
  refine (assert_upto tame_assertion h _).bind fun _ _ => ?_
  rw [modify_adjust hx]
  exact rfl

/-- **`gabs_pbuf_shrink`**, for any range. -/
theorem gabsPbufShrink_owned (ho : h.Owned T) (i : ι) (offset size : Nat) :
    Upto Tame (gabsPbufShrink h i offset size) (Heap.Owned · T) := by
  obtain ⟨l, hc⟩ := ho.slot i
  have ha := ciInit_at hc
  refine upto_ite (fun _ => ?_) fun _ => keep_owned ho ha size
  refine (dropLoop_owned ho ha (hc.length_lt ho.sound) offset 0).bind fun r hr => ?_
  obtain ⟨h₁, it, bytes⟩ := r
  obtain ⟨ho₁, l', ha₁⟩ := hr
  refine upto_ite (fun _ => ho₁) fun heoi => upto_ite (fun _ => ?_) fun _ => keep_owned ho₁ ha₁ size
  cases l' with
  | nil => exact absurd ha₁.eoi heoi
  | cons f l' =>
    obtain ⟨x, hx⟩ := ha₁.chain.live f (by simp)
    obtain ⟨cur, lp⟩ := it
    obtain rfl : cur = some f := ha₁.cur
    refine (ciReleaseHead_upto hx lp _).bind fun r hr => ?_
    obtain ⟨h₂, q⟩ := r
    obtain rfl : h₂ = _ := hr
    have ho₂ := ho₁.adjust (k := fun x =>
      { x with size := sub x.size (sub offset bytes), data := x.data.add (sub offset bytes) }) hx rfl rfl
    exact keep_owned ho₂ (ha₁.adjust f fun _ => rfl) size

theorem gabsPbufStripHead_owned (ho : h.Owned T) (i : ι) (size : Nat) :
    Upto Tame (gabsPbufStripHead h i size) (Heap.Owned · T) := by
  obtain ⟨l, hc⟩ := ho.slot i
  rw [gabsPbufStripHead, gabsPbufSize_wrap ho.sound hc]
  exact gabsPbufShrink_owned ho i size (sub (wrap (h.total l)) size)

theorem gabsPbufStripTail_owned (ho : h.Owned T) (i : ι) (size : Nat) :
    Upto Tame (gabsPbufStripTail h i size) (Heap.Owned · T) := by
  obtain ⟨l, hc⟩ := ho.slot i
  rw [gabsPbufStripTail, gabsPbufSize_wrap ho.sound hc]
  exact gabsPbufShrink_owned ho i 0 (sub (wrap (h.total l)) size)

/-! ## Making buffers -/

/-- **A buffer is made**: it is in the hands of the running call, and no handle variable is set. -/
def Yields (h : Heap ι) (T : List Nat) (r : Heap ι × Option Nat) : Prop :=
  r.1.slots = h.slots ∧ r.1.Owned (r.2.toList ++ T)

omit [DecidableEq ι] in
theorem gabsPbufNew_owned (ho : h.Owned T) (alloc size : Nat) : Upto Tame (gabsPbufNew h alloc size) (Yields h T) := by
  refine (new_upto (fun _ => tame_assertion) alloc size).mono fun r hr => ?_
  split at hr
  · subst hr
    exact ⟨rfl, ho.fresh ‹_› rfl rfl _⟩
  · subst hr
    exact ⟨rfl, ho.refused ‹_› _⟩

omit [DecidableEq ι] in
theorem gabsPbufNewRo_owned (ho : h.Owned T) (alloc : Nat) (data : Ptr) (size : Nat) :
    Upto Tame (gabsPbufNewRo h alloc data size) (Yields h T) := by
  refine (newRo_upto (fun _ => tame_assertion) alloc data size).mono fun r hr => ?_
  split at hr
  · subst hr
    exact ⟨rfl, ho.fresh ‹_› rfl rfl _⟩
  · subst hr
    exact ⟨rfl, ho.refused ‹_› _⟩

/-- A fragment more at the end of a view. -/
theorem extended_owned (ho : h.Owned T) (hg : h.grants h.asked = true) (hv : h.Chain v (m ++ [g])) (hr : x.refcnt = 1)
    (hn : x.next = none) : (h.extended g x).Owned T := by
  obtain ⟨z, hz⟩ := hv.live g (by simp)
  have hne : g ≠ h.asked := hv.ne_asked ho.sound (by simp)
  have ho₁ : (h.fresh sizeofFrag x).Owned ((some h.asked).toList ++ T) := ho.fresh hg hr hn sizeofFrag
  have hz₁ : (h.fresh sizeofFrag x).frags g = some z := by rw [fresh_frags_of_ne hne, hz]
  have hself : (h.fresh sizeofFrag x).frags h.asked = some x := fresh_frags_self h _ x
  have hm : (h.fresh sizeofFrag x).Chain (some h.asked) [h.asked] :=
    ⟨⟨rfl, (next_of hself).trans hn⟩, fun f hf => by rw [List.mem_singleton.mp hf]; exact ⟨x, hself⟩⟩
  have ho₂ := ho₁.relink hz₁ hm fun hg => hne (List.mem_singleton.mp hg)
  rwa [hv.next_last hz] at ho₂

/-- **The loop of `gabs_pbuf_view`**, also where it runs over the end of the source. -/
theorem viewLoop_owned (ho : h.Owned T) (hw : h.Viewing f l v m g) (hn : l.length < n) (alloc size : Nat)
    (lp lp' : Link ι) :
    Upto Tame (viewLoop alloc n h ⟨some f, lp⟩ ⟨some g, lp'⟩ size) fun r => r.slots = h.slots ∧ r.Owned T := by
  induction l generalizing h f m g n size lp lp' with
  | nil =>
    obtain ⟨n, rfl⟩ := exists_fuel hn
    obtain ⟨x, hx⟩ := hw.source.live f (by simp)
    have hnext : x.next = none := (hw.source.tail hx).head
    rw [viewLoop]
    refine upto_ite (fun _ => ⟨rfl, ho⟩) fun _ => ?_
    rw [ciNext_of hx, hnext]
    exact tame_null
  | cons f' l ih =>
    obtain ⟨n, rfl⟩ := exists_fuel hn
    obtain ⟨x, hx⟩ := hw.source.live f (by simp)
    obtain ⟨y, hy⟩ := hw.source.live f' (by simp)
    have hnext : x.next = some f' := (hw.source.tail hx).head
    by_cases hpos : size = 0
    · rw [viewLoop, if_pos hpos]
      exact ⟨rfl, ho⟩
    · by_cases hgrant : h.grants h.asked = true
      · rw [viewLoop_step hw hy hpos hgrant]
        exact ih (extended_owned ho hgrant hw.view rfl rfl) (hw.step rfl) (Nat.lt_of_succ_lt_succ hn) _ _ _
      · rw [viewLoop, if_neg hpos, ciNext_of hx, hnext]
        simp only [bind, Except.bind, ciSize_of hy, ciData_of hy]
        refine (newRo_upto (fun _ => tame_assertion) alloc y.data _).bind fun r hr => ?_
        rw [if_neg hgrant] at hr
        subst hr
        exact (assert_upto tame_assertion _ false).bind fun _ _ => ⟨rfl, ho.refused hgrant _⟩

/-- **`gabs_pbuf_view`**, of any range. -/
theorem gabsPbufView_owned (ho : h.Owned T) (hc : h.Chain p l) (offset size alloc : Nat) :
    Upto Tame (gabsPbufView h p offset size alloc) (Yields h T) := by
  obtain ⟨l₁, l₂, lp, rfl, hseek, -⟩ := seekLoop_stops hc (Nat.zero_le offset) (by decide) (.param : Link ι)
  have hrun := hseek h.fuel (hc.length_lt ho.sound)
  rw [gabsPbufView, bufSeek, ciInit, hrun]
  cases l₂ with
  | nil => exact tame_null
  | cons f t =>
    obtain ⟨x, hx⟩ := hc.live f (by simp)
    have hbehind := hc.behind
    rw [List.head?_cons] at hbehind ⊢
    simp only [bind, Except.bind, ciSize_of hx, ciData_of hx]
    generalize sub offset (wrap (0 + h.total l₁)) = j
    refine (newRo_upto (fun _ => tame_assertion) alloc _ _).bind fun r hr => ?_
    split at hr
    · subst hr
      rename_i hgrant
      have ho₁ := ho.fresh (x := .over (x.data.add j) (min (sub x.size j) size) alloc) hgrant rfl rfl sizeofFrag
      refine upto_ite (fun _ => ⟨rfl, ho₁⟩) fun _ => ?_
      have hfuel : t.length < h.fuel := Nat.lt_of_succ_lt (hbehind.length_lt ho.sound)
      exact (viewLoop_owned ho₁ (viewing_start ho.sound hbehind rfl) hfuel alloc _ lp .param).bind fun h' hh' => hh'
    · subst hr
      exact ⟨rfl, ho.refused ‹_› _⟩

/-! ## Clones -/

/-- The memory of the block has been freed with its fragment, or has never been allocated. -/
def Heap.Gone (h : Heap ι) : Block → Prop
  | .own g => h.frags g = none
  | _ => False

instance (h : Heap ι) (b : Block) : Decidable (h.Gone b) :=
  match b with
  | .own g => inferInstanceAs (Decidable (h.frags g = none))
  | .null | .user _ => .isFalse id

/-- No fragment of `l` points into memory that is gone. -/
def Heap.Backed (h : Heap ι) (l : List Nat) : Prop := ∀ f ∈ l, ∀ x ∈ h.frags f, ¬ h.Gone x.data.block

instance (h : Heap ι) (l : List Nat) : Decidable (h.Backed l) := inferInstanceAs (Decidable (∀ f ∈ l, _))

/-- The fragments of `l` that the first `size` bytes are in. -/
def Heap.held (h : Heap ι) (size : Nat) : List Nat → List Nat
  | [] => []
  | f :: l => (if min (h.size f) size = 0 then [] else [f]) ++ h.held (size - h.size f) l

/-- The fragments that `gabs_pbuf_copy` reads: the range in the one that `buf_seek` finds, `bytes` having been passed
before `l`, and in those behind it. -/
def Heap.reached (h : Heap ι) (offset size : Nat) : List Nat → Nat → List Nat
  | [], _ => []
  | f :: l, bytes =>
    if offset = 0 ∨ offset < wrap (bytes + h.size f) then
      (if min (h.size f - (offset - bytes)) size = 0 then [] else [f]) ++
        h.held (size - (h.size f - (offset - bytes))) l
    else h.reached offset size l (wrap (bytes + h.size f))

omit [DecidableEq ι] in
theorem held_subset (size : Nat) : ∀ f ∈ h.held size l, f ∈ l := by
  induction l generalizing size with
  | nil => exact fun f hf => hf
  | cons g l ih =>
    intro f hf
    rcases List.mem_append.mp hf with hf | hf
    · split at hf
      · cases hf
      · exact List.mem_cons.mpr (.inl (List.mem_singleton.mp hf))
    · exact List.mem_cons_of_mem _ (ih _ f hf)

omit [DecidableEq ι] in
theorem reached_subset (offset size bytes : Nat) : ∀ f ∈ h.reached offset size l bytes, f ∈ l := by
  induction l generalizing bytes with
  | nil => exact fun f hf => hf
  | cons g l ih =>
    intro f hf
    rw [Heap.reached] at hf
    split at hf
    · rcases List.mem_append.mp hf with hf | hf
      · split at hf
        · cases hf
        · exact List.mem_cons.mpr (.inl (List.mem_singleton.mp hf))
      · exact List.mem_cons_of_mem _ (held_subset _ f hf)
    · exact List.mem_cons_of_mem _ (ih _ f hf)

omit [DecidableEq ι] in
theorem Heap.Backed.mono (hb : h.Backed l) (hsub : ∀ f ∈ m, f ∈ l) : h.Backed m := fun f hf => hb f (hsub f hf)

omit [DecidableEq ι] in
theorem held_congr {h' : Heap ι} (hl : ∀ f ∈ l, h'.frags f = h.frags f) (size : Nat) :
    h'.held size l = h.held size l := by
  induction l generalizing size with
  | nil => rfl
  | cons f l ih =>
    rw [Heap.held, Heap.held, size_congr (hl f List.mem_cons_self), ih fun c hc => hl c (List.mem_cons_of_mem _ hc)]

omit [DecidableEq ι] in
theorem reached_congr {h' : Heap ι} (hl : ∀ f ∈ l, h'.frags f = h.frags f) (offset size bytes : Nat) :
    h'.reached offset size l bytes = h.reached offset size l bytes := by
  induction l generalizing bytes with
  | nil => rfl
  | cons f l ih =>
    have htail : ∀ c ∈ l, h'.frags c = h.frags c := fun c hc => hl c (List.mem_cons_of_mem _ hc)
    rw [Heap.reached, Heap.reached, size_congr (hl f List.mem_cons_self), held_congr htail, ih htail]

omit [DecidableEq ι] in
/-- They begin where the loop of `buf_seek` stops. -/
theorem reached_eq (hc : h.Chain p l) {offset k bytes : Nat} {lp lp' : Link ι}
    (hseek : seekLoop h offset n ⟨p, lp⟩ bytes = .ok (⟨some f, lp'⟩, k)) (hf : h.Chain (some f) (f :: m)) (size : Nat) :
    h.reached offset size l bytes = (if min (h.size f - (offset - k)) size = 0 then [] else [f]) ++
      h.held (size - (h.size f - (offset - k))) m := by
  induction l generalizing p n bytes lp with
  | nil =>
    cases hc.path
    cases n <;> cases hseek
  | cons g l ih =>
    obtain ⟨x, hx⟩ := hc.live g List.mem_cons_self
    obtain rfl : p = some g := hc.head
    cases n with
    | zero => cases hseek
    | succ n =>
      rw [seekLoop_cons hx] at hseek
      rw [Heap.reached, size_of hx]
      by_cases hstop : offset = 0 ∨ offset < wrap (bytes + x.size)
      · rw [if_pos hstop] at hseek
        cases hseek
        obtain rfl : l = m := (List.cons.inj (hc.unique hf)).2
        rw [if_pos hstop, size_of hx]
      · rw [if_neg hstop] at hseek
        rw [if_neg hstop]
        exact ih (hc.tail hx) hseek

omit [DecidableEq ι] in
theorem touch_tame {q : Ptr} (hq : n ≠ 0 → ¬ h.Gone q.block) : Upto Tame (h.touch q n) fun _ => True := by
  rw [Heap.touch]
  refine upto_ite (fun _ => trivial) fun hn => ?_
  have hq := hq hn
  cases hb : q.block with
  | null => exact tame_null
  | user k => exact upto_ite (fun _ => trivial) fun _ => ⟨nofun, nofun⟩
  | own g =>
    rw [hb] at hq
    exact upto_ite (fun hg => absurd hg hq) fun _ => upto_ite (fun _ => trivial) fun _ => ⟨nofun, nofun⟩

omit [DecidableEq ι] in
theorem copyLoop_tame (hc : h.Chain (some f) (f :: l)) (hn : l.length < n) (maxSize : Nat) (lp : Link ι)
    (mem : List UInt8) (hb : h.Backed (h.held (maxSize - mem.length) l)) :
    Upto Tame (copyLoop h maxSize n ⟨some f, lp⟩ mem) fun _ => True := by
  induction l generalizing f n lp mem with
  | nil =>
    obtain ⟨n, rfl⟩ := exists_fuel hn
    obtain ⟨x, hx⟩ := hc.live f (by simp)
    have hnext : x.next = none := (hc.tail hx).head
    rw [copyLoop, ciNext_of hx, hnext]
    exact upto_ite (fun _ => trivial) fun _ => trivial
  | cons g l ih =>
    obtain ⟨n, rfl⟩ := exists_fuel hn
    obtain ⟨x, hx⟩ := hc.live f (by simp)
    obtain ⟨y, hy⟩ := hc.live g (by simp)
    have hnext : x.next = some g := (hc.tail hx).head
    have heoi : ciEoi (⟨some g, .next f⟩ : Ci ι) = false := rfl
    rw [copyLoop, ciNext_of hx, hnext]
    refine upto_ite (fun _ => ?_) fun _ => trivial
    simp only [bind, Except.bind, heoi, Bool.false_eq_true, if_false, ciSize_of hy, ciData_of hy]
    rw [Heap.held, size_of hy] at hb
    refine (touch_tame fun hpos => hb g ?_ y hy).bind fun _ _ => ?_
    · rw [if_neg hpos]
      exact List.mem_append_left _ List.mem_cons_self
    · refine ih (hnext ▸ hc.tail hx) (Nat.lt_of_succ_lt_succ hn) _ _ ?_
      have hlen : maxSize - (mem ++ h.load y.data (min y.size (maxSize - mem.length))).length =
          maxSize - mem.length - y.size := by
        rw [List.length_append, Heap.load, List.length_map, List.length_range]
        omega
      rw [hlen]
      exact hb.mono fun c hc => List.mem_append_right _ hc

omit [DecidableEq ι] in
/-- **`gabs_pbuf_copy`**, of any range whose memory is there. -/
theorem gabsPbufCopy_tame (hs : h.Sound) (hc : h.Chain p l) {offset maxSize : Nat}
    (hb : h.Backed (h.reached offset maxSize l 0)) : Upto Tame (gabsPbufCopy h p offset maxSize) fun _ => True := by
  obtain ⟨l₁, l₂, lp, rfl, hseek, hlo, hhi, -⟩ :=
    seekLoop_stops hc (Nat.zero_le offset) (by decide) (.param : Link ι)
  have hrun := hseek h.fuel (hc.length_lt hs)
  rw [gabsPbufCopy, bufSeek, ciInit, hrun]
  refine upto_ite (fun _ => trivial) fun hstop => ?_
  cases l₂ with
  | nil => exact absurd (by simp [ciEoi]) hstop
  | cons f t =>
    obtain ⟨x, hx⟩ := hc.live f (by simp)
    have hbehind := hc.behind
    have hin := hhi f rfl
    rw [List.head?_cons] at hbehind hrun ⊢
    rw [reached_eq hc hrun hbehind, size_of hx] at hb
    rw [size_of hx] at hin
    set k := wrap (0 + h.total l₁)
    have hleft : sub x.size (sub offset k) = x.size - (offset - k) := by
      rw [sub_of_le hlo, sub_of_le (by omega)]
    have hread : min (x.size - (offset - k)) maxSize ≠ 0 → ¬ h.Gone (x.data.add (sub offset k)).block := fun hpos =>
      hb f (by rw [if_neg hpos]; exact List.mem_append_left _ List.mem_cons_self) x hx
    simp only [bind, Except.bind, ciSize_of hx, ciData_of hx, hleft]
    refine (touch_tame hread).bind fun _ _ => ?_
    have hfuel : t.length < h.fuel := Nat.lt_of_succ_lt (hbehind.length_lt hs)
    refine copyLoop_tame hbehind hfuel _ _ _ ?_
    rw [Heap.load, List.length_map, List.length_range,
      show maxSize - min (x.size - (offset - k)) maxSize = maxSize - (x.size - (offset - k)) by omega]
    exact hb.mono fun c hc => List.mem_append_right _ hc

omit [DecidableEq ι] in
theorem ciReserveTail_upto (hx : h.frags f = some x) (lp : Link ι) (n : Nat) :
    Upto Tame (ciReserveTail h ⟨some f, lp⟩ n) fun r =>
      r = (h.adjust f fun x => { x with size := wrap (x.size + n) }, x.data.add x.size) := by
  rw [ciReserveTail, deref_of hx]
  refine (assert_upto tame_assertion h _).bind fun _ _ => ?_
  rw [modify_adjust hx]
  exact rfl

omit [DecidableEq ι] in
/-- **`gabs_pbuf_clone`**, of any range whose memory is there, if it comes to the copy. -/
theorem gabsPbufClone_owned (ho : h.Owned T) (hc : h.Chain p l) {offset size : Nat}
    (hb : h.grants h.asked = true → h.Backed (h.reached offset size l 0)) (alloc : Nat) :
    Upto Tame (gabsPbufClone h p offset size alloc) (Yields h T) := by
  refine (new_upto (fun _ => tame_assertion) alloc size).bind fun r hr => ?_
  split at hr
  · subst hr
    rename_i hgrant
    have hself := fresh_frags_self h (wrap (sizeofFrag + size)) (.blank h.asked size alloc)
    have ho₁ := ho.fresh (x := .blank h.asked size alloc) hgrant rfl rfl (wrap (sizeofFrag + size))
    refine upto_ite (fun _ => ⟨rfl, ho₁⟩) fun _ => (ciReserveTail_upto hself .param size).bind fun r hr => ?_
    subst hr
    have ho₂ := ho₁.adjust (k := fun x => { x with size := wrap (x.size + size) }) hself rfl rfl
    have hc₂ := (hc.fresh ho.sound (wrap (sizeofFrag + size)) (.blank h.asked size alloc)).adjust h.asked
      (k := fun x => { x with size := wrap (x.size + size) }) fun _ => rfl
    have hself₂ := adjust_frags hself fun x => { x with size := wrap (x.size + size) }
    set h₂ := (h.fresh (wrap (sizeofFrag + size)) (.blank h.asked size alloc)).adjust h.asked
      fun x => { x with size := wrap (x.size + size) } with hh₂
    have hsame : ∀ g, g ≠ h.asked → h₂.frags g = h.frags g := fun g hg => by
      rw [hh₂, adjust_frags_of_ne hg, fresh_frags_of_ne hg]
    -- Memory that is there stays.
    have hold : ∀ f ∈ l, h₂.frags f = h.frags f := fun f hf => hsame f (hc.ne_asked ho.sound hf)
    have hb₂ : h₂.Backed (h₂.reached offset size l 0) := by
      intro f hf x hx hgone
      rw [reached_congr hold] at hf
      rw [hold f (reached_subset _ _ _ f hf)] at hx
      apply hb hgrant f hf x hx
      cases hblock : x.data.block with
      | null | user => rwa [hblock] at hgone
      | own g =>
        rw [hblock] at hgone
        by_cases e : g = h.asked
        · rw [e] at hgone
          cases hself₂.symm.trans hgone
        · exact (hsame g e).symm.trans hgone
    refine (gabsPbufCopy_tame ho₂.sound hc₂ hb₂).bind fun b _ => ?_
    have hmem : ¬ h₂.Gone (.own h.asked) := fun hgone => by cases hself₂.symm.trans hgone
    refine (touch_tame (q := (Frag.blank h.asked size alloc).data.add 0) fun _ => hmem).bind fun _ _ => ?_
    refine (assert_upto tame_assertion _ _).bind fun _ _ => ⟨rfl, ?_⟩
    exact ⟨ho₂.handles, ho₂.settled, ho₂.tallied, ho₂.counted, fun f x hx =>
      (ho₂.grounded f x hx).imp fun l hl => ⟨hl.path, hl.live⟩⟩
  · subst hr
    exact ⟨rfl, ho.refused ‹_› _⟩

end Gabs.Pbuf
