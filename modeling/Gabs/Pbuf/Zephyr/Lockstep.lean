import Gabs.Pbuf.Zephyr.Links

/-!
# Packet buffers: `buf.c` over twins

- `gabsPbufSize_tandem` … `gabsPbufCopy_tandem`: the functions that read;
- `chainFront_tandem`, `chainBack_tandem`, `chainAt_tandem`: chaining;
- `shrink_tandem`, `put_tandem`: the functions that change the data of a buffer;
- `clone_tandem`, `view_tandem`: those that make one.

Each loop goes on as long over one implementation as over the other: the induction is on its fuel, and the iterators are
abreast.
-/

namespace Gabs.Pbuf

open Gabs.Lib

variable {ι : Type} [DecidableEq ι] {h h' : Heap ι} {z : Net ι} {i : ι} {p v : Option Nat} {f g n size alloc : Nat}
  {x y : Frag} {l l₁ l₂ m : List Nat} {b : Buf ι} {it : Ci ι} {zt : NetCi ι} {api : NetApi ι} {netbuf : Nat → Bool}

/-! ## Iterators -/

omit [DecidableEq ι] in
theorem Abreast.eoi_iff (ha : Abreast h b it zt) : ciEoi it = true ↔ Net.ciEoi zt = true := by rw [ha.eoi]

omit [DecidableEq ι] in
theorem not_at_end (hcur : it.cur = some f) (hend : ciEoi it = true) : False := by
  rw [ciEoi, hcur] at hend
  cases hend

omit [DecidableEq ι] in
/-- The fragment at iterators that are not at the end. -/
theorem Abreast.live (ha : Abreast h b it zt) (hn : ¬ ciEoi it = true) :
    ∃ f x l₁ l₂, h.frags f = some x ∧ AbreastAt h b l₁ (f :: l₂) it zt := by
  rcases ha.cases with ⟨hcur, -⟩ | hat
  · rw [ciEoi, hcur] at hn
    exact absurd rfl hn
  · exact hat

omit [DecidableEq ι] in
theorem AbreastAt.abreast (ha : AbreastAt h b l₁ l₂ it zt) : Abreast h b it zt := ⟨l₁, l₂, ha⟩

omit [DecidableEq ι] in
/-- The size of the fragment at the iterators. -/
theorem Twin.size_at (ht : Twin h z) (ha : AbreastAt h b l₁ (f :: l₂) it zt) (hx : h.frags f = some x) :
    Tandem (fun s s' => s = x.size ∧ s' = x.size) (ciSize h it) (Net.ciSize z zt) := by
  have hrun : ciSize h it = .ok x.size := by
    rw [ha.basic]
    exact ciSize_of hx _
  obtain ⟨s, hs, rfl⟩ := (ht.size ha.abreast).of_ok hrun
  rw [hrun, hs]
  exact ⟨rfl, rfl⟩

omit [DecidableEq ι] in
/-- The tailroom of the fragment at the iterators. -/
theorem Twin.tailroom_at (doc : api.Documented) (ht : Twin h z) (ha : AbreastAt h b l₁ (f :: l₂) it zt)
    (hx : h.frags f = some x) :
    Tandem (fun s s' => s = x.tailroom ∧ s' = x.tailroom) (ciTailroom h it) (Net.ciTailroom api z zt) := by
  have hrun : ciTailroom h it = .ok x.tailroom := by
    rw [ha.basic]
    exact ciTailroom_of hx _
  obtain ⟨s, hs, rfl⟩ := (ht.tailroom doc ha.abreast).of_ok hrun
  rw [hrun, hs]
  exact ⟨rfl, rfl⟩

omit [DecidableEq ι] in
/-- The iterators at the start of a buffer. -/
theorem Twin.start (ht : Twin h z) (hc : h.Chain (h.value b) l) : Abreast h b (ciInit h b) (Net.ciInit z b) :=
  (ht.init hc).abreast

/-! ## Size and room -/

theorem sizeLoop_tandem (ht : Twin h z) (ha : Abreast h b it zt) (n size : Nat) :
    Tandem Eq ((basic ι).sizeLoop h n it size) ((zephyr api netbuf).sizeLoop z n zt size) := by
  induction n generalizing it zt size with
  | zero => exact rfl
  | succ n ih =>
    rw [Impl.sizeLoop, Impl.sizeLoop]
    refine tandem_ite ha.eoi_iff (fun _ => rfl) fun _ => (ht.size ha).bind ?_
    rintro s _ rfl
    exact (ht.next ha).bind fun it₁ zt₁ ha₁ => ih ha₁ _

/-- The loops have the same fuel. -/
theorem Twin.fuel_eq (ht : Twin h z) : (zephyr api netbuf).fuel z = (basic ι).fuel h := ht.fuel

/-- **`gabs_pbuf_size`.** -/
theorem gabsPbufSize_tandem (ht : Twin h z) (hc : h.Chain p l) :
    Tandem Eq ((basic ι).gabsPbufSize h p) ((zephyr api netbuf).gabsPbufSize z p) := by
  rw [Impl.gabsPbufSize, Impl.gabsPbufSize, ht.fuel_eq]
  exact sizeLoop_tandem ht (ht.start (b := .param p) hc) _ _

theorem tailLoop_tandem (ht : Twin h z) (ha : Abreast h b it zt) (n : Nat) :
    Tandem (Abreast h b) ((basic ι).tailLoop h n it) ((zephyr api netbuf).tailLoop z n zt) := by
  induction n generalizing it zt with
  | zero => exact rfl
  | succ n ih =>
    rw [Impl.tailLoop, Impl.tailLoop]
    refine tandem_ite ha.eoi_iff (fun _ => ha) fun _ => (ht.next ha).bind fun it₁ zt₁ ha₁ => ?_
    exact tandem_ite ha₁.eoi_iff (fun _ => ha) fun _ => ih ha₁

/-- **`gabs_pbuf_tailroom`.** -/
theorem gabsPbufTailroom_tandem (doc : api.Documented) (ht : Twin h z) (hc : h.Chain p l) :
    Tandem Eq ((basic ι).gabsPbufTailroom h p) ((zephyr api netbuf).gabsPbufTailroom z p) := by
  rw [Impl.gabsPbufTailroom, Impl.gabsPbufTailroom, ht.fuel_eq]
  refine (tailLoop_tandem ht (ht.start (b := .param p) hc) _).bind fun it zt ha => ?_
  exact tandem_ite ha.eoi_iff (fun _ => rfl) fun _ => ht.tailroom doc ha

/-- **`gabs_pbuf_headroom`.** -/
theorem gabsPbufHeadroom_tandem (doc : api.Documented) (ht : Twin h z) (hc : h.Chain p l) :
    Tandem Eq ((basic ι).gabsPbufHeadroom h p) ((zephyr api netbuf).gabsPbufHeadroom z p) := by
  have ha := ht.start (b := .param p) hc
  exact tandem_ite ha.eoi_iff (fun _ => rfl) fun _ => ht.headroom doc ha

/-! ## Copies -/

/-- Where `buf_seek` stops, in both implementations: no further than the offset, which the fragment there holds. -/
def Sought (h : Heap ι) (b : Buf ι) (offset : Nat) (r : Ci ι × Nat) (r' : NetCi ι × Nat) : Prop :=
  Abreast h b r.1 r'.1 ∧ r.2 = r'.2 ∧ r.2 ≤ offset ∧
    ∀ f x, r.1.cur = some f → h.frags f = some x → offset ≤ r.2 + x.size

theorem seekLoop_tandem (ht : Twin h z) (ha : Abreast h b it zt) {offset bytes : Nat} (hb : bytes ≤ offset) (n : Nat) :
    Tandem (Sought h b offset) ((basic ι).seekLoop h offset n it bytes)
      ((zephyr api netbuf).seekLoop z offset n zt bytes) := by
  induction n generalizing it zt bytes with
  | zero => exact rfl
  | succ n ih =>
    rw [Impl.seekLoop, Impl.seekLoop]
    refine tandem_ite ha.eoi_iff (fun hend => ?_) fun hn => ?_
    · refine ⟨ha, rfl, hb, fun f x hcur _ => ?_⟩
      exact (not_at_end hcur hend).elim
    · obtain ⟨f, x, l₁, l₂, hx, hat⟩ := ha.live hn
      refine (ht.size_at hat hx).bind ?_
      rintro s s' ⟨rfl, rfl⟩
      refine tandem_ite Iff.rfl (fun hstop => ?_) fun hgo => ?_
      · refine ⟨ha, rfl, hb, fun g y hg hy => ?_⟩
        have hle := wrap_le (bytes + x.size)
        rw [hat.basic] at hg
        cases hg
        cases hx.symm.trans hy
        show offset ≤ bytes + x.size
        omega
      · exact (ht.next ha).bind fun it₁ zt₁ ha₁ => ih ha₁ (by omega)

/-- **`buf_seek`.** -/
theorem bufSeek_tandem (ht : Twin h z) (hc : h.Chain p l) (offset : Nat) :
    Tandem (Sought h (.param p) offset) ((basic ι).bufSeek h p offset) ((zephyr api netbuf).bufSeek z p offset) := by
  rw [Impl.bufSeek, Impl.bufSeek, ht.fuel_eq]
  exact seekLoop_tandem ht (ht.start (b := .param p) hc) (Nat.zero_le offset) _

theorem copyLoop_tandem (ht : Twin h z) (ha : Abreast h b it zt) (maxSize n : Nat) (mem : List UInt8) :
    Tandem Eq ((basic ι).copyLoop h maxSize n it mem) ((zephyr api netbuf).copyLoop z maxSize n zt mem) := by
  induction n generalizing it zt mem with
  | zero => exact rfl
  | succ n ih =>
    rw [Impl.copyLoop, Impl.copyLoop]
    refine tandem_ite Iff.rfl (fun _ => ?_) fun _ => rfl
    refine (ht.next ha).bind fun it₁ zt₁ ha₁ => tandem_ite ha₁.eoi_iff (fun _ => rfl) fun _ => ?_
    refine (ht.size ha₁).bind ?_
    rintro s _ rfl
    refine (ht.data ha₁).bind ?_
    rintro q _ rfl
    have hload : (zephyr api netbuf).load z = (basic ι).load h := funext fun q => funext fun k => ht.load q k
    refine (tandem_eq.mpr (ht.touch q _).symm).bind fun _ _ _ => ?_
    rw [hload]
    exact ih ha₁ _

/-- **`gabs_pbuf_copy`.** -/
theorem gabsPbufCopy_tandem (ht : Twin h z) (hc : h.Chain p l) (offset maxSize : Nat) :
    Tandem Eq ((basic ι).gabsPbufCopy h p offset maxSize) ((zephyr api netbuf).gabsPbufCopy z p offset maxSize) := by
  have hload : (zephyr api netbuf).load z = (basic ι).load h := funext fun q => funext fun k => ht.load q k
  rw [Impl.gabsPbufCopy, Impl.gabsPbufCopy]
  refine (bufSeek_tandem ht hc offset).bind ?_
  rintro ⟨it, boundary⟩ ⟨zt, _⟩ ⟨ha, rfl, -, -⟩
  have heoi : (basic ι).ciEoi it = (zephyr api netbuf).ciEoi zt := ha.eoi
  refine tandem_ite (by rw [heoi]) (fun _ => rfl) fun _ => ?_
  refine (ht.size ha).bind ?_
  rintro s _ rfl
  refine (ht.data ha).bind ?_
  rintro q _ rfl
  refine (tandem_eq.mpr (ht.touch _ _).symm).bind fun _ _ _ => ?_
  rw [hload, ht.fuel_eq]
  exact copyLoop_tandem ht ha _ _ _

/-! ## Chaining -/

/-- A buffer is inserted that shares no fragment with the target. -/
theorem Twin.insert_at (doc : api.Documented) (ht : Twin h z) (ha : Abreast h (.slot i) it zt)
    (hl : h.Chain (h.slots i) l) (hm : h.Chain p m) (hp : p ≠ none) (hd : ∀ f ∈ m, f ∉ l) :
    Tandem (fun r r' => Twin r.1 r'.1) (ciInsert h it p) (Net.ciInsert api z zt p) := by
  obtain ⟨l₁, l₂, hat⟩ := ha
  have hne : m ≠ [] := by
    rintro rfl
    exact hp hm.head
  exact ht.insert doc hat hm hne (hat.at.chain.unique hl ▸ hd)

/-- **`gabs_pbuf_chain_front`.** -/
theorem chainFront_tandem (doc : api.Documented) (ht : Twin h z) (hl : h.Chain (h.slots i) l) (hm : h.Chain p m)
    (hp : p ≠ none) (hd : ∀ f ∈ m, f ∉ l) :
    Tandem Twin ((basic ι).gabsPbufChainFront h i p) ((zephyr api netbuf).gabsPbufChainFront z i p) := by
  refine (ht.insert_at doc (ht.start (b := .slot i) hl) hl hm hp hd).bind ?_
  rintro ⟨h₁, it₁⟩ ⟨z₁, zt₁⟩ ht₁
  exact ht₁

theorem backLoop_tandem (ht : Twin h z) (ha : Abreast h b it zt) (n : Nat) :
    Tandem (Abreast h b) ((basic ι).backLoop h n it) ((zephyr api netbuf).backLoop z n zt) := by
  induction n generalizing it zt with
  | zero => exact rfl
  | succ n ih =>
    rw [Impl.backLoop, Impl.backLoop]
    exact tandem_ite ha.eoi_iff (fun _ => ha) fun _ => (ht.next ha).bind fun it₁ zt₁ ha₁ => ih ha₁

/-- **`gabs_pbuf_chain_back`.** -/
theorem chainBack_tandem (doc : api.Documented) (ht : Twin h z) (hl : h.Chain (h.slots i) l) (hm : h.Chain p m)
    (hp : p ≠ none) (hd : ∀ f ∈ m, f ∉ l) :
    Tandem Twin ((basic ι).gabsPbufChainBack h i p) ((zephyr api netbuf).gabsPbufChainBack z i p) := by
  rw [Impl.gabsPbufChainBack, Impl.gabsPbufChainBack, ht.fuel_eq]
  refine (backLoop_tandem ht (ht.start (b := .slot i) hl) _).bind fun it zt ha => ?_
  refine (ht.insert_at doc ha hl hm hp hd).bind ?_
  rintro ⟨h₁, it₁⟩ ⟨z₁, zt₁⟩ ht₁
  exact ht₁

theorem atLoop_tandem (ht : Twin h z) (ha : Abreast h b it zt) (offset n bytes : Nat) :
    Tandem (fun r r' => Abreast h b r.1 r'.1 ∧ r.2 = r'.2) ((basic ι).atLoop h offset n it bytes)
      ((zephyr api netbuf).atLoop z offset n zt bytes) := by
  induction n generalizing it zt bytes with
  | zero => exact rfl
  | succ n ih =>
    rw [Impl.atLoop, Impl.atLoop]
    refine tandem_ite ha.eoi_iff (fun _ => ⟨ha, rfl⟩) fun _ => (ht.size ha).bind ?_
    rintro s _ rfl
    refine tandem_ite Iff.rfl (fun _ => ⟨ha, rfl⟩) fun _ => ?_
    exact (ht.next ha).bind fun it₁ zt₁ ha₁ => ih ha₁ _

/-- **`gabs_pbuf_chain_at`.** -/
theorem chainAt_tandem (doc : api.Documented) (ht : Twin h z) (hl : h.Chain (h.slots i) l) (hm : h.Chain p m)
    (hp : p ≠ none) (hd : ∀ f ∈ m, f ∉ l) (offset : Nat) :
    Tandem Twin ((basic ι).gabsPbufChainAt h i p offset) ((zephyr api netbuf).gabsPbufChainAt z i p offset) := by
  rw [Impl.gabsPbufChainAt, Impl.gabsPbufChainAt, ht.fuel_eq]
  refine tandem_ite Iff.rfl (fun _ => chainFront_tandem doc ht hl hm hp hd) fun _ => ?_
  refine (atLoop_tandem ht (ht.start (b := .slot i) hl) _ _ _).bind ?_
  rintro ⟨it, bytes⟩ ⟨zt, _⟩ ⟨ha, rfl⟩
  refine (tandem_eq.mpr (ht.assert _).symm).bind fun _ _ _ => (ht.insert_at doc ha hl hm hp hd).bind ?_
  rintro ⟨h₁, it₁⟩ ⟨z₁, zt₁⟩ ht₁
  exact ht₁

/-! ## Shrinking -/

theorem keepLoop_tandem (ht : Twin h z) (ha : Abreast h b it zt) (n bytes rem : Nat) :
    Tandem (fun r r' => Abreast h b r.1 r'.1 ∧ r.2 = r'.2) ((basic ι).keepLoop h n it bytes rem)
      ((zephyr api netbuf).keepLoop z n zt bytes rem) := by
  induction n generalizing it zt bytes rem with
  | zero => exact rfl
  | succ n ih =>
    rw [Impl.keepLoop, Impl.keepLoop]
    refine tandem_ite ha.eoi_iff (fun _ => ⟨ha, rfl⟩) fun _ => (ht.size ha).bind ?_
    rintro s _ rfl
    refine tandem_ite Iff.rfl (fun _ => ⟨ha, rfl⟩) fun _ => ?_
    exact (ht.next ha).bind fun it₁ zt₁ ha₁ => ih ha₁ _ _

omit [DecidableEq ι] in
/-- The end of the last fragment that is kept is released. -/
theorem Twin.trim_tail (doc : api.Documented) (ht : Twin h z) (ha : Abreast h b it zt) (hx : ∀ f x, it.cur = some f →
    h.frags f = some x → n ≤ x.size) (hn : ¬ ciEoi it = true) :
    Tandem (fun r r' => Twin r.1 r'.1 ∧ Abreast r.1 b it zt) (ciReleaseTail h it n) (Net.ciReleaseTail api z zt n) := by
  obtain ⟨f, x, l₁, l₂, hf, hat⟩ := ha.live hn
  have ho : RoomOp.Holds x (.releaseTail n) := hx f x (by rw [hat.basic]; rfl) hf
  exact (ht.room doc hat hf ho).mono fun r r' hr => ⟨hr.1, (hat.adjusted hr.2.2).abreast⟩

omit [DecidableEq ι] in
/-- The start of the first fragment that is kept is released. -/
theorem Twin.trim_head (doc : api.Documented) (ht : Twin h z) (ha : Abreast h b it zt) (hx : ∀ f x, it.cur = some f →
    h.frags f = some x → n ≤ x.size) (hn : ¬ ciEoi it = true) :
    Tandem (fun r r' => Twin r.1 r'.1 ∧ Abreast r.1 b it zt) (ciReleaseHead h it n) (Net.ciReleaseHead api z zt n) := by
  obtain ⟨f, x, l₁, l₂, hf, hat⟩ := ha.live hn
  have ho : RoomOp.Holds x (.releaseHead n) := hx f x (by rw [hat.basic]; rfl) hf
  exact (ht.room doc hat hf ho).mono fun r r' hr => ⟨hr.1, (hat.adjusted hr.2.2).abreast⟩

theorem keep_tandem (doc : api.Documented) (ht : Twin h z) (ha : Abreast h (.slot i) it zt) (size : Nat) :
    Tandem Twin ((basic ι).keep h it size) ((zephyr api netbuf).keep z zt size) := by
  rw [Impl.keep, Impl.keep, ht.fuel_eq]
  refine (keepLoop_tandem ht ha _ _ _).bind ?_
  rintro ⟨it₁, bytes⟩ ⟨zt₁, _⟩ ⟨ha₁, rfl⟩
  refine tandem_ite ha₁.eoi_iff (fun _ => ht) fun hn => ?_
  obtain ⟨f, x, l₁, l₂, hx, hat⟩ := ha₁.live hn
  refine (ht.size_at hat hx).bind ?_
  rintro s s' ⟨rfl, rfl⟩
  -- What is behind the last fragment is cut off.
  have hrest : ∀ h₁ z₁, Twin h₁ z₁ → Abreast h₁ (.slot i) it₁ zt₁ → Tandem Twin
      (do
        let it ← (basic ι).ciNext h₁ it₁
        if (basic ι).ciEoi it then .ok h₁ else (basic ι).ciDetach h₁ it)
      (do
        let it ← (zephyr api netbuf).ciNext z₁ zt₁
        if (zephyr api netbuf).ciEoi it then .ok z₁ else (zephyr api netbuf).ciDetach z₁ it) := by
    intro h₁ z₁ ht₁ ha₂
    refine (ht₁.next ha₂).bind fun it₂ zt₂ ha₃ => tandem_ite ha₃.eoi_iff (fun _ => ht₁) fun hn₂ => ?_
    obtain ⟨g, y, k₁, k₂, -, hat₂⟩ := ha₃.live hn₂
    exact ht₁.detach doc hat₂
  refine tandem_ite Iff.rfl (fun hlt => ?_) fun _ => hrest h z ht ha₁
  have hle : sub x.size bytes ≤ x.size := by
    rw [sub_of_le (Nat.le_of_lt hlt)]
    exact Nat.sub_le _ _
  refine Tandem.bind (φ := fun h₁ z₁ => Twin h₁ z₁ ∧ Abreast h₁ (.slot i) it₁ zt₁) ?_ fun h₁ z₁ hr =>
    hrest h₁ z₁ hr.1 hr.2
  refine (ht.trim_tail doc ha₁ (fun g y hg hy => ?_) hn).bind ?_
  · rw [hat.basic] at hg
    cases hg
    cases hx.symm.trans hy
    exact hle
  · rintro ⟨h₁, q⟩ ⟨z₁, q'⟩ hr
    exact hr

/-- The fragments in front are removed: as many in both implementations, and where the offset is not in the last one of
them. -/
theorem dropLoop_tandem (doc : api.Documented) (ht : Twin h z) (ha : Abreast h (.slot i) it zt) {offset bytes : Nat}
    (hb : bytes ≤ offset) (n : Nat) :
    Tandem (fun r r' => Twin r.1 r'.1 ∧ Sought r.1 (.slot i) offset r.2 r'.2) ((basic ι).dropLoop offset n h it bytes)
      ((zephyr api netbuf).dropLoop offset n z zt bytes) := by
  induction n generalizing h z it zt bytes with
  | zero => exact rfl
  | succ n ih =>
    rw [Impl.dropLoop, Impl.dropLoop]
    refine tandem_ite ha.eoi_iff (fun hend => ?_) fun hn => ?_
    · refine ⟨ht, ha, rfl, hb, fun f x hcur _ => ?_⟩
      exact (not_at_end hcur hend).elim
    · obtain ⟨f, x, l₁, l₂, hx, hat⟩ := ha.live hn
      refine (ht.size_at hat hx).bind ?_
      rintro s s' ⟨rfl, rfl⟩
      refine tandem_ite Iff.rfl (fun hstop => ?_) fun hgo => ?_
      · refine ⟨ht, ha, rfl, hb, fun g y hg hy => ?_⟩
        have hle := wrap_le (bytes + x.size)
        rw [hat.basic] at hg
        cases hg
        cases hx.symm.trans hy
        show offset ≤ bytes + x.size
        omega
      · refine (ht.remove doc hat).bind ?_
        rintro ⟨h₁, it₁⟩ ⟨z₁, zt₁⟩ ⟨ht₁, hat₁⟩
        exact ih ht₁ hat₁.abreast (by omega)

/-- **`gabs_pbuf_shrink`.** -/
theorem shrink_tandem (doc : api.Documented) (ht : Twin h z) (hl : h.Chain (h.slots i) l) (offset size : Nat) :
    Tandem Twin ((basic ι).gabsPbufShrink h i offset size) ((zephyr api netbuf).gabsPbufShrink z i offset size) := by
  have ha := ht.start (b := .slot i) hl
  rw [Impl.gabsPbufShrink, Impl.gabsPbufShrink, ht.fuel_eq]
  refine tandem_ite Iff.rfl (fun _ => ?_) fun _ => keep_tandem doc ht ha size
  refine (dropLoop_tandem doc ht ha (Nat.zero_le offset) _).bind ?_
  rintro ⟨h₁, it₁, bytes⟩ ⟨z₁, zt₁, _⟩ ⟨ht₁, ha₁, rfl, hb, hlast⟩
  refine tandem_ite ha₁.eoi_iff (fun _ => ht₁) fun hn => ?_
  refine tandem_ite Iff.rfl (fun _ => ?_) fun _ => keep_tandem doc ht₁ ha₁ size
  refine (ht₁.trim_head doc ha₁ (fun f x hcur hx => ?_) hn).bind ?_
  · have hle : offset ≤ bytes + x.size := hlast f x hcur hx
    have hle' : bytes ≤ offset := hb
    show sub offset bytes ≤ x.size
    rw [sub_of_le hle']
    omega
  · rintro ⟨h₂, q⟩ ⟨z₂, q'⟩ ⟨ht₂, ha₂⟩
    exact keep_tandem doc ht₂ ha₂ size

/-! ## Appending -/

omit [DecidableEq ι] in
theorem Adjusted.refl (h : Heap ι) : Adjusted h h := ⟨rfl, rfl⟩

omit [DecidableEq ι] in
theorem Adjusted.trans {h₁ : Heap ι} (ha : Adjusted h h₁) (hb : Adjusted h₁ h') : Adjusted h h' :=
  ⟨hb.shape.trans ha.shape, hb.grants.trans ha.grants⟩

omit [DecidableEq ι] in
/-- Bytes are written. -/
theorem adjusted_store (h : Heap ι) (q : Ptr) (data : List UInt8) : Adjusted h (h.store q data) := ⟨rfl, rfl⟩

theorem putLoop_tandem (doc : api.Documented) (ht : Twin h z) (ha : Abreast h b it zt) (n : Nat) (data : List UInt8) :
    Tandem (fun r r' => Twin r r' ∧ Adjusted h r) ((basic ι).putLoop n h it data)
      ((zephyr api netbuf).putLoop n z zt data) := by
  induction n generalizing h z it zt data with
  | zero => exact rfl
  | succ n ih =>
    rw [Impl.putLoop, Impl.putLoop]
    refine tandem_ite (or_congr Iff.rfl ha.eoi_iff) (fun _ => ⟨ht, .refl h⟩) fun hn => ?_
    obtain ⟨f, x, l₁, l₂, hx, hat⟩ := ha.live fun hend => hn (.inr hend)
    refine (ht.tailroom_at doc hat hx).bind ?_
    rintro s s' ⟨rfl, rfl⟩
    have ho : RoomOp.Holds x (.reserveTail (min x.tailroom data.length)) := Nat.min_le_left _ _
    refine (ht.room doc hat hx ho).bind ?_
    rintro ⟨h₁, q⟩ ⟨z₁, _⟩ ⟨ht₁, rfl, hadj⟩
    refine (tandem_eq.mpr (ht₁.assert _).symm).bind fun _ _ _ => ?_
    refine (tandem_eq.mpr (ht₁.touch _ _).symm).bind fun _ _ _ => ?_
    have hadj₂ := hadj.trans (adjusted_store h₁ q (data.take (min x.tailroom data.length)))
    have ht₂ := ht₁.store q (data.take (min x.tailroom data.length))
    refine (ht₂.next (hat.adjusted hadj₂).abreast).bind fun it₁ zt₁ ha₁ => ?_
    exact (ih ht₂ ha₁ _).mono fun r r' hr => ⟨hr.1, hadj₂.trans hr.2⟩

/-- **`gabs_pbuf_put`.** -/
theorem put_tandem (doc : api.Documented) (ht : Twin h z) (hl : h.Chain (h.slots i) l) (data : List UInt8) :
    Tandem (fun r r' => Twin r r' ∧ Adjusted h r) ((basic ι).gabsPbufPut h i data)
      ((zephyr api netbuf).gabsPbufPut z i data) := by
  rw [Impl.gabsPbufPut, Impl.gabsPbufPut, ht.fuel_eq]
  exact putLoop_tandem doc ht (ht.start (b := .slot i) hl) _ data

/-! ## Making buffers -/

omit [DecidableEq ι] in
theorem Adjusted.chain (ha : Adjusted h h') (hc : h.Chain p l) : h'.Chain p l :=
  hc.congr (fun f _ => congrFun ha.next f) fun f hf => ha.live (hc.live f hf)

omit [DecidableEq ι] in
/-- A fragment that has been made is a chain. -/
theorem fresh_chain (h : Heap ι) (n : Nat) (hx : x.next = none) : (h.fresh n x).Chain (some h.asked) [h.asked] := by
  have hself := fresh_frags_self h n x
  exact ⟨⟨rfl, (next_of hself).trans hx⟩, fun f hf => by rw [List.mem_singleton.mp hf]; exact ⟨x, hself⟩⟩

/-- **`gabs_pbuf_clone`.** -/
theorem clone_tandem (doc : api.Documented) (ht : Twin h z) (hc : h.Chain p l) (hnet : netbuf alloc = true)
    (hpos : 0 < size) (hsize : size < 2 ^ 16) (offset : Nat) :
    Tandem (fun r r' => Twin r.1 r'.1 ∧ r.2 = r'.2) ((basic ι).gabsPbufClone h p offset size alloc)
      ((zephyr api netbuf).gabsPbufClone z p offset size alloc) := by
  rw [Impl.gabsPbufClone, Impl.gabsPbufClone]
  refine (ht.new doc hnet hpos hsize).bind ?_
  rintro ⟨h₁, ret⟩ ⟨z₁, _⟩ ⟨ht₁, rfl, hmade⟩
  refine tandem_ite Iff.rfl (fun _ => ⟨ht₁, rfl⟩) fun hok => ?_
  rcases hmade with hmade | hnone
  · cases hmade
    have hx := fresh_frags_self h (sizeofFrag + size) (.blank h.asked size alloc)
    have hat := ht₁.init (b := .param (some h.asked)) (fresh_chain h (sizeofFrag + size) rfl)
    have ho : RoomOp.Holds (Frag.blank h.asked size alloc) (.reserveTail size) := by
      have hfits := fits_blank h.asked alloc (by omega : size < 2 ^ 64)
      have htail := hfits.tailroom
      rw [hfits.headroom] at htail
      show size ≤ (Frag.blank h.asked size alloc).tailroom
      simp only [Frag.blank] at htail ⊢
      omega
    refine (ht₁.room doc hat hx ho).bind ?_
    rintro ⟨h₂, q⟩ ⟨z₂, _⟩ ⟨ht₂, rfl, hadj⟩
    have hc₂ := hadj.chain (hc.fresh ht.sound (sizeofFrag + size) (.blank h.asked size alloc))
    refine (gabsPbufCopy_tandem ht₂ hc₂ offset size).bind ?_
    rintro bytes _ rfl
    refine (tandem_eq.mpr (ht₂.touch _ _).symm).bind fun _ _ _ => ?_
    have ht₃ := ht₂.store q bytes
    refine (tandem_eq.mpr (ht₃.assert _).symm).bind fun _ _ _ => ?_
    exact ⟨ht₃, rfl⟩
  · have hret : ret = none := hnone
    rw [hret] at hok
    exact absurd rfl hok

omit [DecidableEq ι] in
theorem net_deref_of (ht : Twin h z) (hx : h.frags f = some x) : z.deref (some f) = .ok (f, x.simple) := by
  have hbuf : (z.links.bufs f).isSome = true := by
    rw [ht.links, shape_bufs hx]
    rfl
  rw [Net.deref, if_pos hbuf, (ht.frag f x hx).simple]

omit [DecidableEq ι] in
theorem net_next_of (ht : Twin h z) (hx : h.frags f = some x) (b : Buf ι) (q : Option Nat) :
    Net.ciNext z ⟨b, q, some f⟩ = .ok ⟨b, some f, x.next⟩ := by
  have hbuf : z.links.deref (some f) = .ok ⟨x.next, x.refcnt⟩ := by rw [ht.links, NetHeap.deref, shape_bufs hx]
  simp only [Net.ciNext, hbuf, bind, Except.bind]

/-- A new fragment is appended to a view. -/
theorem net_insert_extended (doc : api.Documented) (ht : Twin (h.fresh sizeofFrag x) z) (hg : g ≠ h.asked)
    (hy : h.frags g = some y) (hend : y.next = none) (hx : x.next = none) (b : Buf ι) :
    Net.ciInsert api z ⟨b, some g, none⟩ (some h.asked) =
      .ok ({ z with links := (h.extended g x).shape }, ⟨b, some g, some h.asked⟩) := by
  have hself := fresh_frags_self h sizeofFrag x
  have hy' : (h.fresh sizeofFrag x).frags g = some y := by rw [fresh_frags_of_ne hg, hy]
  have hchain : z.links.Chain (some h.asked) ([] ++ [h.asked]) := by
    rw [ht.links]
    exact shape_chain ht.sound (fresh_chain h sizeofFrag hx)
  have hlive : ∃ w, z.links.bufs g = some w := by
    rw [ht.links]
    exact shape_live ⟨y, hy'⟩
  have hins := doc.fragInsert z.links g h.asked [] h.asked hchain hlive (by simpa using hg)
  have hnext : (h.fresh sizeofFrag x).shape.next g = none := by rw [shape_next, next_of hy', hend]
  have hlinks : (z.links.link h.asked (z.links.next g)).link g (some h.asked) = (h.extended g x).shape := by
    rw [ht.links, hnext, ← shape_link, link_eq_self hself hx, ← shape_link]
    rfl
  rw [hlinks] at hins
  simp only [Net.ciInsert, hins, bind, Except.bind]

/-- **The loop of `gabs_pbuf_view`.** -/
theorem viewLoop_tandem (doc : api.Documented) (ht : Twin h z) (hnet : netbuf alloc = true) (hw : h.Viewing f l v m g)
    (n size : Nat) (lp lp' : Link ι) (b c : Buf ι) (q q' : Option Nat) :
    Tandem Twin ((basic ι).viewLoop alloc n h ⟨some f, lp⟩ ⟨some g, lp'⟩ size)
      ((zephyr api netbuf).viewLoop alloc n z ⟨b, q, some f⟩ ⟨c, q', some g⟩ size) := by
  induction n generalizing h z f l m g size lp lp' q q' with
  | zero => exact rfl
  | succ n ih =>
    rw [Impl.viewLoop, Impl.viewLoop]
    refine tandem_ite Iff.rfl (fun _ => ht) fun _ => ?_
    obtain ⟨x, hx⟩ := hw.source.live f List.mem_cons_self
    have hnext : (basic ι).ciNext h ⟨some f, lp⟩ = .ok ⟨x.next, .next f⟩ := ciNext_of hx lp
    have hnet_next : (zephyr api netbuf).ciNext z ⟨b, q, some f⟩ = .ok ⟨b, some f, x.next⟩ := net_next_of ht hx b q
    rw [hnext, hnet_next]
    cases l with
    | nil =>
      -- The source has ended.
      have hend : x.next = none := (hw.source.tail hx).head
      rw [hend]
      exact rfl
    | cons f' l =>
      obtain ⟨y, hy⟩ := hw.source.live f' (by simp)
      have hnext' : x.next = some f' := (hw.source.tail hx).head
      have hsize : (basic ι).ciSize h ⟨some f', .next f⟩ = .ok y.size := ciSize_of hy _
      have hdata : (basic ι).ciData h ⟨some f', .next f⟩ = .ok y.data := ciData_of hy _
      have hderef := net_deref_of ht hy
      have hnet_size : (zephyr api netbuf).ciSize z ⟨b, some f, some f'⟩ = .ok y.size := by
        simp only [zephyr, Net.ciSize, hderef, bind, Except.bind]
        rfl
      have hnet_data : (zephyr api netbuf).ciData z ⟨b, some f, some f'⟩ = .ok y.data := by
        simp only [zephyr, Net.ciData, hderef, bind, Except.bind]
        rfl
      have hlt : min y.size size < 2 ^ 16 := by
        have his := ht.frag f' y hy
        have hroom := his.fits.room
        have hcap := his.cap
        omega
      simp only [hnext', bind, Except.bind, hsize, hdata, hnet_size, hnet_data]
      refine (ht.newRo doc hnet hlt y.data).bind ?_
      rintro ⟨h₁, cur⟩ ⟨z₁, _⟩ ⟨ht₁, rfl, hmade⟩
      refine tandem_ite Iff.rfl (fun _ => ?_) fun hok => ?_
      · exact (tandem_eq.mpr (ht₁.assert false).symm).bind fun _ _ _ => ht₁
      · rcases hmade with hmade | hnone
        · cases hmade
          obtain ⟨w, hwg⟩ := hw.view.live g (by simp)
          have hgne : g ≠ h.asked := hw.view.ne_asked hw.sound (by simp)
          have hwend : w.next = none := hw.view.next_last hwg
          have hwg' : (h.fresh sizeofFrag (.over y.data (min y.size size) alloc)).frags g = some w := by
            rw [fresh_frags_of_ne hgne, hwg]
          have hins_next : (basic ι).ciNext (h.fresh sizeofFrag (.over y.data (min y.size size) alloc)) ⟨some g, lp'⟩ =
              .ok ⟨w.next, .next g⟩ := ciNext_of hwg' lp'
          have hnet_ins_next : (zephyr api netbuf).ciNext z₁ ⟨c, q', some g⟩ = .ok ⟨c, some g, w.next⟩ :=
            net_next_of ht₁ hwg' c q'
          have hins : (basic ι).ciInsert (h.fresh sizeofFrag (.over y.data (min y.size size) alloc)) ⟨none, .next g⟩
              (some h.asked) = .ok (h.extended g (.over y.data (min y.size size) alloc), ⟨some h.asked, .next g⟩) :=
            ciInsert_extended hgne hwg rfl
          have hnet_ins : (zephyr api netbuf).ciInsert z₁ ⟨c, some g, none⟩ (some h.asked) = _ :=
            net_insert_extended doc ht₁ hgne hwg hwend rfl c
          have ht₂ : Twin (h.extended g (.over y.data (min y.size size) alloc)) _ :=
            ht₁.relink (relinked_link _ (.next g) (some h.asked)) (ht₁.sound.link _ _) (ht₁.counted.link _ _)
          simp only [hins_next, hnet_ins_next, hwend, hins, hnet_ins]
          exact ih ht₂ (hw.step rfl) _ _ _ _ _
        · have hcur : cur = none := hnone
          rw [hcur] at hok
          exact absurd rfl hok

/-- **`gabs_pbuf_view`**, of any range. -/
theorem view_tandem (doc : api.Documented) (ht : Twin h z) (hc : h.Chain p l) (hnet : netbuf alloc = true)
    (offset size : Nat) : Tandem (fun r r' => Twin r.1 r'.1 ∧ r.2 = r'.2) ((basic ι).gabsPbufView h p offset size alloc)
      ((zephyr api netbuf).gabsPbufView z p offset size alloc) := by
  rw [Impl.gabsPbufView, Impl.gabsPbufView]
  refine (bufSeek_tandem ht hc offset).bind ?_
  rintro ⟨it, boundary⟩ ⟨zt, _⟩ ⟨ha, rfl, hle, hlast⟩
  rcases ha.cases with ⟨hcur, hzcur⟩ | ⟨f, x, l₁, l₂, hx, hat⟩
  · -- There is no fragment with the offset.
    have hrun : (basic ι).ciSize h it = .error .null := by
      show ciSize h it = _
      rw [ciSize, hcur]
      rfl
    have hnet_run : (zephyr api netbuf).ciSize z zt = .error .null := by
      show Net.ciSize z zt = _
      rw [Net.ciSize, hzcur]
      rfl
    simp only [hrun, hnet_run]
    exact rfl
  · refine (ht.size_at hat hx).bind ?_
    rintro s s' ⟨rfl, rfl⟩
    refine (ht.data ha).bind ?_
    rintro q _ rfl
    have hle' : boundary ≤ offset := hle
    have hin : offset ≤ boundary + x.size := hlast f x (by rw [hat.basic]; rfl) hx
    have his := ht.frag f x hx
    have hroom := his.fits.room
    have hcap := his.cap
    have hlt : min (sub x.size (sub offset boundary)) size < 2 ^ 16 := by
      rw [sub_of_le hle', sub_of_le (by omega)]
      omega
    refine (ht.newRo doc hnet hlt (q.add (sub offset boundary))).bind ?_
    rintro ⟨h₁, v⟩ ⟨z₁, _⟩ ⟨ht₁, rfl, hmade⟩
    refine tandem_ite Iff.rfl (fun _ => ⟨ht₁, rfl⟩) fun hok => ?_
    rcases hmade with hmade | hnone
    · cases hmade
      have hbehind : h.Chain (some f) (f :: l₂) := hat.chain.behind
      have hstart := viewing_start ht.sound hbehind
        (y := .over (q.add (sub offset boundary)) (min (sub x.size (sub offset boundary)) size) alloc) rfl
      have hit : it = ⟨some f, (Buf.param p).link l₁⟩ := hat.basic
      have hzt : zt = ⟨.param p, l₁.getLast?, some f⟩ := hat.zephyr
      rw [hit, hzt, ht.fuel_eq]
      refine (viewLoop_tandem doc ht₁ hnet hstart _ _ _ _ _ _ _ _).bind fun h₂ z₂ ht₂ => ?_
      exact ⟨ht₂, rfl⟩
    · have hv : v = none := hnone
      rw [hv] at hok
      exact absurd rfl hok

end Gabs.Pbuf
