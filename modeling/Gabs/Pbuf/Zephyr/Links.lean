import Gabs.Pbuf.Zephyr.Twins

/-!
# Packet buffers: links and references of twins

- `Relinked`: a heap in which links and references change; `Twin.relink`: its twin;
- `Twin.insert`, `Twin.remove`, `Twin.detach`: the iterators that change links;
- `Twin.incref`, `Twin.decref`: references;
- `Twin.new`, `Twin.newRo`: new buffers.
-/

namespace Gabs.Pbuf

open Gabs.Lib

variable {ι : Type} {h h' h₁ : Heap ι} {z : Net ι} {i : ι} {p : Option Nat} {f n size alloc : Nat} {x y : Frag}
  {l l₁ l₂ m : List Nat} {b : Buf ι} {it : Ci ι} {zt : NetCi ι} {api : NetApi ι} {netbuf : Nat → Bool}

/-! ## Links and references -/

/-- Links and references change, and fragments are released; nothing else happens. -/
structure Relinked (h h' : Heap ι) : Prop where
  frags : ∀ f y, h'.frags f = some y → ∃ x, h.frags f = some x ∧ y = { x with refcnt := y.refcnt, next := y.next }
  requests : h'.requests = h.requests
  grants : h'.grants = h.grants
  bytes : h'.bytes = h.bytes
  extent : h'.extent = h.extent
  ndebug : h'.ndebug = h.ndebug

theorem Relinked.refl (h : Heap ι) : Relinked h h := ⟨fun _ y hy => ⟨y, hy, rfl⟩, rfl, rfl, rfl, rfl, rfl⟩

theorem Relinked.trans (hr : Relinked h h₁) (hr' : Relinked h₁ h') : Relinked h h' where
  frags f y hy := by
    obtain ⟨w, hw, hyw⟩ := hr'.frags f y hy
    obtain ⟨x, hx, hwx⟩ := hr.frags f w hw
    refine ⟨x, hx, ?_⟩
    rw [hyw, hwx]
  requests := hr'.requests.trans hr.requests
  grants := hr'.grants.trans hr.grants
  bytes := hr'.bytes.trans hr.bytes
  extent := hr'.extent.trans hr.extent
  ndebug := hr'.ndebug.trans hr.ndebug

/-- A fragment gets another link and another counter. -/
theorem relinked_put (hx : h.frags f = some x) (r : Nat) (v : Option Nat) :
    Relinked h (h.put f { x with refcnt := r, next := v }) := by
  refine ⟨fun g y hy => ?_, rfl, rfl, rfl, rfl, rfl⟩
  by_cases e : g = f
  · subst e
    rw [put_frags, Function.update_self] at hy
    cases hy
    exact ⟨x, hx, rfl⟩
  · rw [put_frags, Function.update_of_ne e] at hy
    exact ⟨y, hy, rfl⟩

theorem relinked_drop (h : Heap ι) (f : Nat) : Relinked h (h.drop f) := by
  cases hx : h.frags f with
  | none =>
    rw [Heap.drop, hx]
    exact .refl h
  | some x =>
    simp only [Heap.drop, hx]
    split
    · exact relinked_put hx _ x.next
    · refine ⟨fun g y hy => ?_, rfl, rfl, rfl, rfl, rfl⟩
      by_cases e : g = f
      · subst e
        rw [dealloc_frags, Function.update_self] at hy
        cases hy
      · rw [dealloc_frags, Function.update_of_ne e] at hy
        exact ⟨y, hy, rfl⟩

theorem relinked_unref (h : Heap ι) (l : List Nat) : Relinked h (h.unref l) := by
  induction l generalizing h with
  | nil => exact .refl h
  | cons f l ih =>
    rw [Heap.unref]
    split
    · exact .refl h
    · split
      · exact relinked_drop h f
      · exact (relinked_drop h f).trans (ih (h.drop f))

/-- **The twin of a heap in which links and references have changed.** -/
theorem Twin.relink (ht : Twin h z) (hr : Relinked h h') (hs : h'.Sound) (hc : h'.Counted) :
    Twin h' { z with links := h'.shape } := by
  refine ⟨hs, hc, rfl, fun f y hy => ?_, ht.grants.trans hr.grants.symm, ht.bytes.trans hr.bytes.symm,
    ht.extent.trans hr.extent.symm, ht.ndebug.trans hr.ndebug.symm⟩
  obtain ⟨x, hx, hyx⟩ := hr.frags f y hy
  obtain ⟨hsimple, hext, hfits, hcap, hblock⟩ := ht.frag f x hx
  rw [hyx, hr.requests]
  exact ⟨hsimple, hext, hfits.relink _ _, hcap, hblock⟩

variable [DecidableEq ι]

theorem relinked_link (h : Heap ι) (q : Link ι) (v : Option Nat) : Relinked h (h.link q v) := by
  cases q with
  | slot | param => exact ⟨fun _ y hy => ⟨y, hy, rfl⟩, rfl, rfl, rfl, rfl, rfl⟩
  | next g =>
    cases hx : h.frags g with
    | none =>
      have hsame : (h.link (.next g) v).frags = h.frags := by
        show Function.update h.frags g ((h.frags g).map _) = h.frags
        rw [hx, Option.map_none, ← hx, Function.update_eq_self]
      exact ⟨fun f y hy => ⟨y, by rw [← hsame]; exact hy, rfl⟩, rfl, rfl, rfl, rfl, rfl⟩
    | some x =>
      have hput : h.link (.next g) v = h.put g { x with next := v } := by
        rw [Heap.link, hx]
        rfl
      rw [hput]
      exact relinked_put hx x.refcnt v

/-- A handle variable is set. -/
theorem Twin.hold (ht : Twin h z) (i : ι) (v : Option Nat) : Twin (h.hold i v) (z.hold i v) := by
  have hlink : Twin (h.link (.slot i) v) { z with links := (h.link (.slot i) v).shape } :=
    ht.relink (relinked_link h _ v) (ht.sound.link _ _) (ht.counted.link _ _)
  rw [Net.hold, ht.links]
  exact hlink

/-! ## Iterators -/

/-- The iterators of a handle variable are those of the links alone. -/
theorem net_ciInsert (z : Net ι) (prev cur buf : Option Nat) : Net.ciInsert api z ⟨.slot i, prev, cur⟩ buf =
    (zephyrCiInsert api.toNetBufApi z.links ⟨i, prev, cur⟩ buf).map
      fun r => ({ z with links := r.1 }, ⟨.slot i, r.2.prev, r.2.cur⟩) := by
  cases prev with
  | some prev =>
    simp only [Net.ciInsert, zephyrCiInsert, bind, Except.bind]
    cases api.fragInsert z.links (some prev) buf <;> rfl
  | none =>
    cases cur with
    | none => rfl
    | some f =>
      simp only [Net.ciInsert, zephyrCiInsert, Option.isSome_some, if_true, bind, Except.bind]
      cases api.fragAdd z.links buf (some f) <;> rfl

theorem net_ciDetach (z : Net ι) (prev cur : Option Nat) : Net.ciDetach api z ⟨.slot i, prev, cur⟩ =
    (zephyrCiDetach api.toNetBufApi z.links ⟨i, prev, cur⟩).map fun links => { z with links := links } := by
  by_cases hhead : z.value (.slot i) = cur
  · rw [Net.ciDetach, zephyrCiDetach, if_pos hhead, if_pos (show z.links.slots i = cur from hhead)]
    simp only [Net.setHead, Net.hold, bind, Except.bind]
    cases api.unref (z.links.setHead i none) cur <;> rfl
  · rw [Net.ciDetach, zephyrCiDetach, if_neg hhead, if_neg (show ¬ z.links.slots i = cur from hhead)]
    cases prev with
    | none => rfl
    | some prev =>
      simp only [bind, Except.bind]
      cases z.links.deref (some prev) with
      | error e => rfl
      | ok x =>
        simp only
        cases api.unref (z.links.link prev none) cur <;> rfl

theorem net_ciRemove (z : Net ι) (prev cur : Option Nat) : Net.ciRemove api z ⟨.slot i, prev, cur⟩ =
    (zephyrCiRemove api.toNetBufApi z.links ⟨i, prev, cur⟩).map
      fun r => ({ z with links := r.1 }, ⟨.slot i, r.2.prev, r.2.cur⟩) := by
  simp only [Net.ciRemove, zephyrCiRemove, Net.value, bind, Except.bind]
  cases api.fragDel z.links prev cur with
  | error e => rfl
  | ok r =>
    by_cases hhead : z.links.slots i = cur
    · simp only [hhead, decide_true, if_true]
      rfl
    · simp only [hhead, decide_false, Bool.false_eq_true, if_false]
      rfl

/-- **`gabs_pbuf_ci_insert`** of a chain that shares no fragment with the target. -/
theorem Twin.insert (doc : api.Documented) (ht : Twin h z) (ha : AbreastAt h (.slot i) l₁ l₂ it zt) (hm : h.Chain p m)
    (hne : m ≠ []) (hd : ∀ f ∈ m, f ∉ l₁ ++ l₂) :
    Tandem (fun r r' => Twin r.1 r'.1) (ciInsert h it p) (Net.ciInsert api z zt p) := by
  obtain ⟨it', hrun, -⟩ := ciInsert_at ht.sound ha.at hm hne hd
  have hz := zephyrCiInsert_at doc.toDocumented ht.sound ha.at hm hne hd
  have hr : Relinked h (h.spliced i l₁ l₂ m) := (relinked_link h _ _).trans (relinked_link _ _ _)
  rw [hrun, ha.zephyr, net_ciInsert, ht.links, hz, Except.map, tandem_ok]
  exact ht.relink hr ((ht.sound.link _ _).link _ _) ((ht.counted.link _ _).link _ _)

/-- **`gabs_pbuf_ci_remove`** of the next fragment. -/
theorem Twin.remove (doc : api.Documented) (ht : Twin h z) (ha : AbreastAt h (.slot i) l₁ (f :: l₂) it zt) :
    Tandem (fun r r' => Twin r.1 r'.1 ∧ AbreastAt r.1 (.slot i) l₁ l₂ r.2 r'.2) (ciRemove h it)
      (Net.ciRemove api z zt) := by
  obtain ⟨⟨cur, lp⟩, hrun, ha'⟩ := ciRemove_at ht.sound ha.at
  have hz := zephyrCiRemove_at doc.toDocumented ht.counted ha.at
  have hr : Relinked h ((h.link (lastp i l₁) l₂.head?).cut f) :=
    ((relinked_link h _ _).trans (relinked_link _ _ _)).trans (relinked_drop _ f)
  rw [hrun, ha.zephyr, List.head?_cons, net_ciRemove, ht.links, hz, Except.map, tandem_ok]
  refine ⟨ht.relink hr (((ht.sound.link _ _).link _ _).drop f) (((ht.counted.link _ _).link _ _).drop f),
    ha'.chain, ?_, rfl⟩
  have hcur : cur = l₂.head? := ha'.cur
  have hlp : lp = lastp i l₁ := ha'.lastp
  rw [hcur, hlp]
  rfl

/-- **`gabs_pbuf_ci_detach`** of the remaining fragments. -/
theorem Twin.detach (doc : api.Documented) (ht : Twin h z) (ha : AbreastAt h (.slot i) l₁ (f :: l₂) it zt) :
    Tandem Twin (ciDetach h it) (Net.ciDetach api z zt) := by
  obtain ⟨hrun, -⟩ := ciDetach_at ht.sound ha.at
  have hz := zephyrCiDetach_at doc.toDocumented ht.sound ht.counted ha.at
  have hr : Relinked h ((h.link (lastp i l₁) none).unref (f :: l₂)) := (relinked_link h _ _).trans (relinked_unref _ _)
  rw [hrun, ha.zephyr, List.head?_cons, net_ciDetach, ht.links, hz, Except.map, tandem_ok]
  exact ht.relink hr ((ht.sound.link _ _).unref _) ((ht.counted.link _ _).unref _)

omit [DecidableEq ι]

/-! ## References -/

/-- **`gabs_pbuf_decref`.** -/
theorem Twin.decref (doc : api.Documented) (ht : Twin h z) (hc : h.Chain p l) :
    Tandem Twin (gabsPbufDecref h p) (Net.gabsPbufDecref api z p) := by
  rw [gabsPbufDecref, decrefLoop_eq hc (hc.length_lt ht.sound), Net.gabsPbufDecref]
  cases p with
  | none =>
    obtain rfl : l = [] := hc.unique chain_nil
    exact ht
  | some f =>
    have hz := doc.unref z.links (some f) l (by rw [ht.links]; exact shape_chain ht.sound hc)
    have hok : (some f).isSome = true := rfl
    rw [if_pos hok, hz, ht.links, ← shape_unref ht.counted]
    exact ht.relink (relinked_unref h l) (ht.sound.unref l) (ht.counted.unref l)

/-- **`gabs_pbuf_incref`.** -/
theorem Twin.incref (doc : api.Documented) (ht : Twin h z) (hx : h.frags f = some x) (hr : x.refcnt + 1 < 2 ^ 8) :
    Tandem Twin (gabsPbufIncref h (some f)) (Net.gabsPbufIncref api z (some f)) := by
  have hinc : inc x.refcnt = x.refcnt + 1 := inc_of_lt (by omega)
  have hbuf : z.links.bufs f = some ⟨x.next, x.refcnt⟩ := by rw [ht.links, shape_bufs hx]
  have hself : (h.put f { x with refcnt := x.refcnt + 1 }).frags f = some { x with refcnt := x.refcnt + 1 } :=
    Function.update_self ..
  have hlinks : { z.links with bufs := Function.update z.links.bufs f (some ⟨x.next, x.refcnt + 1⟩) } =
      (h.put f { x with refcnt := x.refcnt + 1 }).shape := by
    rw [ht.links]
    refine NetHeap.ext rfl (funext fun g => ?_) rfl rfl
    by_cases e : g = f
    · subst e
      rw [shape_bufs hself]
      exact Function.update_self ..
    · simp only [Function.update_of_ne e, Heap.shape, put_frags]
  rw [gabsPbufIncref, modify_of hx, hinc, Net.gabsPbufIncref, doc.ref z.links f _ hbuf hr]
  simp only [bind, Except.bind]
  rw [hlinks, tandem_ok]
  refine ht.relink (relinked_put hx _ x.next) (fun g y hy => ?_) fun g y hy => ?_
  · by_cases e : g = f
    · subst e
      exact ht.sound g x hx
    · rw [put_frags, Function.update_of_ne e] at hy
      exact ht.sound g y hy
  · by_cases e : g = f
    · subst e
      rw [hself] at hy
      cases hy
      exact Nat.succ_pos _
    · rw [put_frags, Function.update_of_ne e] at hy
      exact ht.counted g y hy

/-! ## New buffers -/

theorem shape_fresh (h : Heap ι) (n : Nat) (x : Frag) : (h.fresh n x).shape =
    { h.shape with bufs := Function.update h.shape.bufs h.asked (some ⟨x.next, x.refcnt⟩), count := h.asked + 1 } := by
  refine NetHeap.ext rfl (funext fun g => ?_) rfl rfl
  by_cases e : g = h.asked
  · subst e
    have hself : Function.update h.shape.bufs h.asked (some ⟨x.next, x.refcnt⟩) h.asked = some ⟨x.next, x.refcnt⟩ :=
      Function.update_self ..
    exact (shape_bufs (fresh_frags_self h n x)).trans hself.symm
  · simp only [Heap.shape, fresh_frags_of_ne e, Function.update_of_ne e]

/-- **A new buffer.** -/
theorem Twin.fresh (ht : Twin h z) (hx : x.Fits) (hc : x.cap < 2 ^ 16) (hr : 0 < x.refcnt) (k : Nat) :
    Twin (h.fresh (sizeofFrag + k) x)
      { z with
        links := (h.fresh (sizeofFrag + k) x).shape
        simple := Function.update z.simple h.asked x.simple
        external := Function.update z.external h.asked x.readonly
        blocks := Function.update z.blocks h.asked k } := by
  refine ⟨ht.sound.fresh _ x, fun g y hy => ?_, rfl, fun g y hy => ?_, ht.grants, ht.bytes, ht.extent, ht.ndebug⟩
  · by_cases e : g = h.asked
    · subst e
      rw [fresh_frags_self] at hy
      cases hy
      exact hr
    · rw [fresh_frags_of_ne e] at hy
      exact ht.counted g y hy
  · by_cases e : g = h.asked
    · subst e
      rw [fresh_frags_self] at hy
      cases hy
      have hreq : (h.fresh (sizeofFrag + k) x).requests h.asked = sizeofFrag + k := Function.update_self ..
      exact ⟨Function.update_self .., Function.update_self .., hx, hc, by simp only [hreq, Function.update_self]⟩
    · rw [fresh_frags_of_ne e] at hy
      obtain ⟨hsimple, hext, hfits, hcap, hblock⟩ := ht.frag g y hy
      have hreq : (h.fresh (sizeofFrag + k) x).requests g = h.requests g := Function.update_of_ne e ..
      refine ⟨?_, ?_, hfits, hcap, ?_⟩
      · exact (Function.update_of_ne e ..).trans hsimple
      · exact (Function.update_of_ne e ..).trans hext
      · simp only [hreq, hblock, Function.update_of_ne e]

/-- An allocation that fails. -/
theorem Twin.refused (ht : Twin h z) (n : Nat) : Twin (h.refused n) z.refused := by
  refine ⟨fun g y hy => ?_, ht.counted, ?_, fun g y hy => ?_, ht.grants, ht.bytes, ht.extent, ht.ndebug⟩
  · exact Nat.lt_succ_of_lt (ht.sound g y hy)
  · rw [Net.refused, ht.links]
    rfl
  · obtain ⟨hsimple, hext, hfits, hcap, hblock⟩ := ht.frag g y hy
    have hne : g ≠ h.asked := Nat.ne_of_lt (ht.sound g y hy)
    have hreq : (h.refused n).requests g = h.requests g := Function.update_of_ne hne ..
    exact ⟨hsimple, hext, hfits, hcap, by rw [hreq]; exact hblock⟩

/-- What `gabs_pbuf_new` of the Zephyr implementation does, with an allocator of its own. -/
theorem net_new (doc : api.Documented) (ht : Twin h z) (hnet : netbuf alloc = true) (hsize : size < 2 ^ 16) :
    Net.gabsPbufNew api netbuf z alloc size =
      if h.grants h.asked then .ok (z.fresh size, some h.asked)
      else (do
        z.refused.assert false
        .ok (z.refused, none)) := by
  have hcount : z.links.count = h.asked := by rw [ht.links]; rfl
  rw [Net.gabsPbufNew, hnet, netbufAlloc, doc.allocLen z alloc size hsize, ht.grants, hcount]
  by_cases hg : h.grants h.asked = true
  · simp only [hg, if_true]
    rfl
  · simp only [hg]
    rfl

/-- The buffer that is made, or none. -/
def Makes (h : Heap ι) (n : Nat) (x : Frag) (r : Heap ι × Option Nat) (r' : Net ι × Option Nat) : Prop :=
  Twin r.1 r'.1 ∧ r.2 = r'.2 ∧ (r = (h.fresh n x, some h.asked) ∨ r.2 = none)

/-- **`gabs_pbuf_new`**, when memory is asked for. -/
theorem Twin.new (doc : api.Documented) (ht : Twin h z) (hnet : netbuf alloc = true) (hpos : 0 < size)
    (hsize : size < 2 ^ 16) :
    Tandem (Makes h (sizeofFrag + size) (.blank h.asked size alloc)) (gabsPbufNew h alloc size)
      (Net.gabsPbufNew api netbuf z alloc size) := by
  have hwrap : wrap (sizeofFrag + size) = sizeofFrag + size := wrap_of_lt (by rw [sizeofFrag]; omega)
  have hcount : z.links.count = h.asked := by rw [ht.links]; rfl
  rw [net_new doc ht hnet hsize, gabsPbufNew, hwrap]
  refine tandem_ite Iff.rfl (fun _ => ⟨?_, rfl, .inl rfl⟩) fun _ => ?_
  · have hnet : z.fresh size = { z with
        links := (h.fresh (sizeofFrag + size) (.blank h.asked size alloc)).shape
        simple := Function.update z.simple h.asked (Frag.blank h.asked size alloc).simple
        external := Function.update z.external h.asked (Frag.blank h.asked size alloc).readonly
        blocks := Function.update z.blocks h.asked size } := by
      rw [Net.fresh, hcount, shape_fresh, ht.links, Net.room, if_neg (Nat.ne_of_gt hpos)]
      rfl
    rw [hnet]
    exact ht.fresh (fits_blank h.asked alloc (by omega)) hsize Nat.one_pos size
  · have hrefused := ht.refused (sizeofFrag + size)
    refine (tandem_eq.mpr (hrefused.assert false).symm).bind fun _ _ _ => ?_
    exact ⟨hrefused, rfl, .inr rfl⟩

/-- **`gabs_pbuf_new_ro`.** -/
theorem Twin.newRo (doc : api.Documented) (ht : Twin h z) (hnet : netbuf alloc = true) (hsize : size < 2 ^ 16)
    (data : Ptr) : Tandem (Makes h sizeofFrag (.over data size alloc)) (gabsPbufNewRo h alloc data size)
      (Net.gabsPbufNewRo api netbuf z alloc data size) := by
  have hcount : z.links.count = h.asked := by rw [ht.links]; rfl
  rw [Net.gabsPbufNewRo, net_new doc ht hnet (by decide)]
  by_cases hg : h.grants h.asked = true
  · have hmade : ({ (z.fresh 0).put h.asked ⟨data, size, size, data⟩ with
        external := Function.update (z.fresh 0).external h.asked true } : Net ι) = { z with
          links := (h.fresh sizeofFrag (.over data size alloc)).shape
          simple := Function.update z.simple h.asked (Frag.over data size alloc).simple
          external := Function.update z.external h.asked (Frag.over data size alloc).readonly
          blocks := Function.update z.blocks h.asked 0 } := by
      rw [Net.fresh, Net.put, hcount, Function.update_idem, Function.update_idem, shape_fresh, ht.links]
      rfl
    have hfresh := ht.fresh (fits_over data (by omega : size < 2 ^ 64) alloc) hsize Nat.one_pos 0
    rw [newRo_eq hg, if_pos hg]
    simp only [bind, Except.bind, doc.initWithData _ data size hsize]
    rw [tandem_ok]
    refine ⟨?_, rfl, .inl rfl⟩
    exact hmade ▸ hfresh
  · have hrefused := ht.refused (wrap (sizeofFrag + 0))
    rw [gabsPbufNewRo, gabsPbufNew, if_neg hg, if_neg hg]
    refine Tandem.bind (φ := fun r r' => r = (h.refused (wrap (sizeofFrag + 0)), none) ∧ r' = (z.refused, none)) ?_ ?_
    · refine (tandem_eq.mpr (hrefused.assert false).symm).bind fun _ _ _ => ?_
      exact ⟨rfl, rfl⟩
    · rintro r r' ⟨rfl, rfl⟩
      refine (tandem_eq.mpr (hrefused.assert false).symm).bind fun _ _ _ => ?_
      exact ⟨hrefused, rfl, .inr rfl⟩

end Gabs.Pbuf
