import Gabs.Lib.Lts
import Gabs.Pbuf.Chain
import Gabs.Pbuf.Zephyr.Model

/-!
# Packet buffers: two implementations of one cursor

- `Heap.shape`: the links and references of a heap, which are those of the network buffers;
- `CursorOp`, `cursors`: the same operations through one iterator of each implementation;
- `Agree`: both heaps have one shape, and both iterators split the chain in the same way (`Agree.step`);
- `cursors_agree`: so they do in every run, and neither implementation fails.
-/

namespace Gabs.Pbuf

open Gabs.Lib

variable {ι : Type} {h : Heap ι} {z : NetHeap ι} {i : ι} {p v : Option Nat} {f g : Nat} {x : Frag}
  {l l₁ l₂ m : List Nat}

/-! ## The shape of a heap -/

/-- The links and the references of a heap. -/
def Heap.shape (h : Heap ι) : NetHeap ι where
  slots := h.slots
  bufs f := (h.frags f).map fun x => ⟨x.next, x.refcnt⟩
  count := h.asked
  released := h.released.map Prod.snd

theorem shape_next (h : Heap ι) (f : Nat) : h.shape.next f = h.next f := by
  simp only [NetHeap.next, Heap.next, Heap.shape]
  cases h.frags f <;> rfl

theorem shape_live (hx : ∃ x, h.frags f = some x) : ∃ x, h.shape.bufs f = some x := by
  obtain ⟨x, hx⟩ := hx
  exact ⟨⟨x.next, x.refcnt⟩, by simp only [Heap.shape, hx, Option.map_some]⟩

theorem shape_chain (hs : h.Sound) (hc : h.Chain p l) : h.shape.Chain p l := by
  refine ⟨hc.path.congr fun f _ => shape_next h f, fun f hf => ?_⟩
  obtain ⟨x, hx⟩ := hc.live f hf
  exact ⟨hs f x hx, shape_live ⟨x, hx⟩⟩

theorem shape_drop (hn : h.Counted) (f : Nat) : (h.drop f).shape = h.shape.drop f := by
  cases hx : h.frags f with
  | none => simp only [Heap.drop, NetHeap.drop, Heap.shape, hx, Option.map_none]
  | some x =>
    have hdec := dec_of_pos (hn f x hx)
    simp only [Heap.drop, NetHeap.drop, Heap.shape, hx, Option.map_some, hdec]
    split
    · refine NetHeap.ext rfl (funext fun g => ?_) rfl rfl
      by_cases e : g = f
      · subst e; simp
      · simp [Function.update_of_ne e]
    · refine NetHeap.ext rfl (funext fun g => ?_) rfl rfl
      by_cases e : g = f
      · subst e; simp
      · simp [Function.update_of_ne e]

theorem shape_unref (hn : h.Counted) (l : List Nat) : (h.unref l).shape = h.shape.unref l := by
  induction l generalizing h with
  | nil => rfl
  | cons f l ih =>
    cases hx : h.frags f with
    | none =>
      have hz : h.shape.bufs f = none := by simp only [Heap.shape, hx, Option.map_none]
      simp only [Heap.unref, NetHeap.unref, hx, hz]
    | some x =>
      have hz : h.shape.bufs f = some ⟨x.next, x.refcnt⟩ := by simp only [Heap.shape, hx, Option.map_some]
      simp only [Heap.unref, NetHeap.unref, hx, hz, dec_of_pos (hn f x hx), ← shape_drop hn]
      split
      · rfl
      · exact ih (hn.drop f)

variable [DecidableEq ι]

theorem shape_link (h : Heap ι) (f : Nat) (v : Option Nat) : (h.link (.next f) v).shape = h.shape.link f v := by
  refine NetHeap.ext rfl (funext fun g => ?_) rfl rfl
  simp only [Heap.shape, NetHeap.link, link_frags]
  by_cases e : f = g
  · subst e
    rw [if_pos rfl, Function.update_self]
    cases h.frags f <;> rfl
  · rw [if_neg fun h => e (by cases h; rfl), Function.update_of_ne (Ne.symm e)]

theorem shape_slot (h : Heap ι) (i : ι) (v : Option Nat) : (h.link (.slot i) v).shape = h.shape.setHead i v := rfl

theorem setHead_link (z : NetHeap ι) (i : ι) (f : Nat) (v w : Option Nat) :
    (z.setHead i v).link f w = (z.link f w).setHead i v := rfl

theorem setHead_drop (z : NetHeap ι) (i : ι) (f : Nat) (v : Option Nat) :
    (z.setHead i v).drop f = (z.drop f).setHead i v := by
  cases hx : z.bufs f with
  | none => simp only [NetHeap.drop, NetHeap.setHead, hx]
  | some x =>
    simp only [NetHeap.drop, NetHeap.setHead, hx]
    split <;> rfl

/-! ## The operations -/

/-- The operations through one iterator; an insert names the first fragment of the chain. -/
inductive CursorOp
  | init
  | next
  | insert (buf : Option Nat)
  | remove
  | detach

/-- A heap and the iterator in use; a detach returns none. -/
abbrev BasicSide (ι : Type) := Heap ι × Option (Ci ι)

abbrev ZephyrSide (ι : Type) := NetHeap ι × Option (ZephyrCi ι)

/-- An operation on slot `i` under the basic implementation. -/
def basicStep (i : ι) (s : BasicSide ι) : CursorOp → Except Fault (BasicSide ι)
  | .init => .ok (s.1, some (ciInit s.1 (.slot i)))
  | op => match s.2 with
    | none => .error .null
    | some it => match op with
      | .init => .ok (s.1, some (ciInit s.1 (.slot i)))
      | .next => do
        let it ← ciNext s.1 it
        .ok (s.1, some it)
      | .insert buf => do
        let (h, it) ← ciInsert s.1 it buf
        .ok (h, some it)
      | .remove => do
        let (h, it) ← ciRemove s.1 it
        .ok (h, some it)
      | .detach => do
        let h ← ciDetach s.1 it
        .ok (h, none)

/-- An operation on slot `i` under the Zephyr implementation. -/
def zephyrStep (api : NetBufApi ι) (i : ι) (s : ZephyrSide ι) : CursorOp → Except Fault (ZephyrSide ι)
  | .init => .ok (s.1, some (zephyrCiInit s.1 i))
  | op => match s.2 with
    | none => .error .null
    | some it => match op with
      | .init => .ok (s.1, some (zephyrCiInit s.1 i))
      | .next => do
        let it ← zephyrCiNext s.1 it
        .ok (s.1, some it)
      | .insert buf => do
        let (z, it) ← zephyrCiInsert api s.1 it buf
        .ok (z, some it)
      | .remove => do
        let (z, it) ← zephyrCiRemove api s.1 it
        .ok (z, some it)
      | .detach => do
        let z ← zephyrCiDetach api s.1 it
        .ok (z, none)

/-- **The uses of an iterator**: next, remove and detach not at the end; an inserted chain has fragments, none of which
is in the target. -/
def Allowed (i : ι) (s : BasicSide ι) : CursorOp → Prop
  | .init => True
  | .next | .remove | .detach => ∃ it ∈ s.2, ciEoi it = false
  | .insert buf => s.2 ≠ none ∧ ∃ m ∈ s.1.chain buf, m ≠ [] ∧ ∃ l ∈ s.1.chain (s.1.slots i), ∀ f ∈ m, f ∉ l

instance (i : ι) (s : BasicSide ι) (op : CursorOp) : Decidable (Allowed i s op) := by
  cases op <;> (unfold Allowed; infer_instance)

/-- Both implementations, from corresponding heaps on, with the same operations. -/
def cursors (api : NetBufApi ι) (i : ι) (h₀ : Heap ι) : Lts (BasicSide ι × ZephyrSide ι) CursorOp where
  init s := s = ((h₀, none), (h₀.shape, none))
  step s op :=
    match basicStep i s.1 op, zephyrStep api i s.2 op with
    | .ok b, .ok z => some (b, z)
    | _, _ => none

/-! ## Agreement -/

/-- The iterators are at the same position. -/
inductive SamePlace (h : Heap ι) (i : ι) : Option (Ci ι) → Option (ZephyrCi ι) → Prop
  | none {l : List Nat} : h.Chain (h.slots i) l → SamePlace h i none none
  | at {l₁ l₂ : List Nat} {it : Ci ι} : h.At i l₁ l₂ it → SamePlace h i (some it) (some ⟨i, l₁.getLast?, l₂.head?⟩)

omit [DecidableEq ι] in
/-- One is at the end where the other is. -/
theorem SamePlace.eoi {it : Ci ι} {it' : ZephyrCi ι} (h' : SamePlace h i (some it) (some it')) :
    zephyrCiEoi it' = ciEoi it := by
  cases h'
  rename_i ha
  rw [zephyrCiEoi, ciEoi, ha.cur]

/-- **Both implementations keep the same fragments**, with the same references, and release the same ones; the iterators
are at the same position. -/
structure Agree (i : ι) (b : BasicSide ι) (z : ZephyrSide ι) : Prop where
  sound : b.1.Sound
  counted : b.1.Counted
  shape : z.1 = b.1.shape
  place : SamePlace b.1 i b.2 z.2

/-- The insert of the Zephyr implementation. -/
theorem zephyrCiInsert_at {api : NetBufApi ι} (doc : api.Documented) (hs : h.Sound) {it : Ci ι} (ha : h.At i l₁ l₂ it)
    (hm : h.Chain p m) (hne : m ≠ []) (hd : ∀ f ∈ m, f ∉ l₁ ++ l₂) :
    zephyrCiInsert api h.shape ⟨i, l₁.getLast?, l₂.head?⟩ p =
      .ok ((h.spliced i l₁ l₂ m).shape, ⟨i, l₁.getLast?, p⟩) := by
  obtain ⟨m', g, rfl⟩ : ∃ m' g, m = m' ++ [g] := by
    rcases List.eq_nil_or_concat m with rfl | ⟨m', g, rfl⟩
    · exact absurd rfl hne
    · exact ⟨m', g, List.concat_eq_append ..⟩
  have hmz := shape_chain hs hm
  have hp : p = (m' ++ [g]).head? := hm.head
  obtain ⟨b, hb⟩ : ∃ b, p = some b := by
    cases p with
    | none => cases m' <;> cases hp
    | some b => exact ⟨b, rfl⟩
  subst hb
  rw [Heap.spliced, lastp_concat, ← hp]
  rcases List.eq_nil_or_concat l₁ with rfl | ⟨l', q, rfl⟩
  · rw [lastp_nil, shape_slot, shape_link]
    simp only [zephyrCiInsert, List.getLast?_nil]
    cases l₂ with
    | cons f l₂ =>
      simp only [List.head?_cons, Option.isSome_some, if_true, doc.fragAdd _ _ _ _ _ hmz, bind, Except.bind]
    | nil =>
      obtain ⟨x, hx⟩ := hm.live g (by simp)
      have hend : x.next = none := by
        obtain ⟨r, -, hr⟩ := path_append.mp hm.path
        exact (next_of hx).symm.trans hr.2
      rw [List.head?_nil, ← shape_link, link_eq_self hx hend]
      rfl
  · rw [List.concat_eq_append] at ha hd ⊢
    obtain ⟨hlive, hlead⟩ := ha.leads
    have hq : q ∉ m' ++ [g] := fun h => hd q h (by simp)
    rw [lastp_concat, shape_link, shape_link]
    simp only [zephyrCiInsert, List.getLast?_concat, doc.fragInsert _ _ _ _ _ hmz (shape_live hlive) hq,
      shape_next, hlead, bind, Except.bind]

/-- The remove of the Zephyr implementation. -/
theorem zephyrCiRemove_at {api : NetBufApi ι} (doc : api.Documented) (hn : h.Counted) {it : Ci ι}
    (ha : h.At i l₁ (f :: l₂) it) : zephyrCiRemove api h.shape ⟨i, l₁.getLast?, some f⟩ =
      .ok (((h.link (lastp i l₁) l₂.head?).cut f).shape, ⟨i, l₁.getLast?, l₂.head?⟩) := by
  have hlive := ha.chain.live f (by simp)
  have hnext : h.shape.next f = l₂.head? := by
    obtain ⟨x, hx⟩ := hlive
    rw [shape_next, next_of hx]
    exact (ha.chain.behind.tail hx).head
  have hhead := ha.head_iff
  rw [Heap.cut, shape_drop ((hn.link _ _).link _ _), shape_link]
  rcases List.eq_nil_or_concat l₁ with rfl | ⟨l', q, rfl⟩
  · have hdel := doc.fragDel h.shape none f (shape_live hlive) (by simp)
    have hslot : h.shape.slots i = some f := hhead.mpr rfl
    rw [lastp_nil, shape_slot, setHead_link, setHead_drop, List.getLast?_nil]
    simp only [zephyrCiRemove, hdel, hnext, hslot, decide_true, if_true, bind, Except.bind, Option.elim]
  · rw [List.concat_eq_append] at ha hhead ⊢
    have hq : q ≠ f := by
      rintro rfl
      exact (List.nodup_append.mp ha.chain.path.nodup).2.2 q (by simp) q (by simp) rfl
    have hdel := doc.fragDel h.shape (some q) f (shape_live hlive) fun p' hp' => by
      cases hp'
      exact ⟨(shape_next h q).trans ha.leads.2, hq⟩
    have hslot : h.shape.slots i ≠ some f := fun e => absurd (hhead.mp e) (by simp)
    rw [lastp_concat, shape_link, List.getLast?_concat]
    simp only [zephyrCiRemove, hdel, hnext, hslot, decide_false, Bool.false_eq_true, if_false, bind, Except.bind,
      Option.elim]

/-- The detach of the Zephyr implementation. -/
theorem zephyrCiDetach_at {api : NetBufApi ι} (doc : api.Documented) (hs : h.Sound) (hn : h.Counted) {it : Ci ι}
    (ha : h.At i l₁ (f :: l₂) it) : zephyrCiDetach api h.shape ⟨i, l₁.getLast?, some f⟩ =
      .ok ((h.link (lastp i l₁) none).unref (f :: l₂)).shape := by
  have hhead := ha.head_iff
  have hc₂ : (h.link (lastp i l₁) none).Chain (some f) (f :: l₂) :=
    ha.chain.behind.link fun g hg => lastp_ne fun h =>
      (List.nodup_append.mp ha.chain.path.nodup).2.2 g h g hg rfl
  have hunref := doc.unref _ _ _ (shape_chain (hs.link _ _) hc₂)
  rw [shape_unref (hn.link _ _)]
  rcases List.eq_nil_or_concat l₁ with rfl | ⟨l', q, rfl⟩
  · have hslot : h.shape.slots i = some f := hhead.mpr rfl
    rw [lastp_nil, shape_slot] at hunref ⊢
    simp only [zephyrCiDetach, hslot, if_true, hunref]
  · rw [List.concat_eq_append] at ha hhead hunref ⊢
    have hslot : h.shape.slots i ≠ some f := fun e => absurd (hhead.mp e) (by simp)
    obtain ⟨y, hy⟩ := shape_live ha.leads.1
    rw [lastp_concat, shape_link] at hunref ⊢
    simp only [zephyrCiDetach, hslot, if_false, List.getLast?_concat, NetHeap.deref, hy, hunref, bind, Except.bind]

/-- **One operation**: both implementations perform it, and agree afterwards. -/
theorem Agree.step {api : NetBufApi ι} (doc : api.Documented) {b : BasicSide ι} {z : ZephyrSide ι} (hi : Agree i b z)
    {op : CursorOp} (ho : Allowed i b op) :
    ∃ b' z', basicStep i b op = .ok b' ∧ zephyrStep api i z op = .ok z' ∧ Agree i b' z' := by
  obtain ⟨h, bit⟩ := b
  obtain ⟨z, zit⟩ := z
  obtain ⟨hs, hn, rfl, hp⟩ := hi
  have hsome : ∀ {it : Ci ι} {zt : Option (ZephyrCi ι)}, SamePlace h i (some it) zt →
      ∃ l₁ l₂, h.At i l₁ l₂ it ∧ zt = some ⟨i, l₁.getLast?, l₂.head?⟩ := fun hp => by
    cases hp with
    | «at» ha => exact ⟨_, _, ha, rfl⟩
  have hcons : ∀ {it : Ci ι}, bit = some it → ciEoi it = false →
      ∃ l₁ f l₂, h.At i l₁ (f :: l₂) it ∧ zit = some ⟨i, l₁.getLast?, some f⟩ := fun {it} hit he => by
    rw [hit] at hp
    obtain ⟨l₁, l₂, ha, hz⟩ := hsome hp
    cases l₂ with
    | nil =>
      have hcur := ha.cur
      rw [ciEoi, hcur] at he
      cases he
    | cons f l₂ => exact ⟨l₁, f, l₂, ha, hz⟩
  cases op with
  | init =>
    have hc : ∃ l, h.Chain (h.slots i) l := by
      cases hp with
      | none hc => exact ⟨_, hc⟩
      | «at» ha => exact ⟨_, ha.chain⟩
    obtain ⟨l, hc⟩ := hc
    refine ⟨_, _, rfl, rfl, hs, hn, rfl, ?_⟩
    have hplace : SamePlace h i _ _ := .at (ciInit_at hc)
    rw [← hc.head] at hplace
    exact hplace
  | next =>
    obtain ⟨it, hit, he⟩ := ho
    obtain ⟨l₁, f, l₂, ha, rfl⟩ := hcons hit he
    cases hit
    obtain ⟨it', hnext, ha'⟩ := ciNext_at ha
    obtain ⟨x, hx⟩ := ha.chain.live f (by simp)
    have hz : zephyrCiNext h.shape ⟨i, l₁.getLast?, some f⟩ = .ok ⟨i, some f, l₂.head?⟩ := by
      have hxz : h.shape.bufs f = some ⟨x.next, x.refcnt⟩ := by simp only [Heap.shape, hx, Option.map_some]
      have hhead : x.next = l₂.head? := (ha.chain.behind.tail hx).head
      simp only [zephyrCiNext, NetHeap.deref, hxz, hhead, bind, Except.bind]
    refine ⟨(h, some it'), (h.shape, some ⟨i, some f, l₂.head?⟩), ?_, ?_, hs, hn, rfl, ?_⟩
    · simp only [basicStep, hnext, bind, Except.bind]
    · simp only [zephyrStep, hz, bind, Except.bind]
    · have hplace : SamePlace h i _ _ := .at ha'
      rwa [List.getLast?_concat] at hplace
  | insert buf =>
    obtain ⟨hit, m, hm, hne, l, hl, hd⟩ := ho
    obtain ⟨it, rfl⟩ := Option.ne_none_iff_exists'.mp hit
    obtain ⟨l₁, l₂, ha, rfl⟩ := hsome hp
    have hm := chain_of_walk hm
    have hd' : ∀ f ∈ m, f ∉ l₁ ++ l₂ := ha.chain.unique (chain_of_walk hl) ▸ hd
    obtain ⟨it', hins, ha'⟩ := ciInsert_at hs ha hm hne hd'
    have hz := zephyrCiInsert_at doc hs ha hm hne hd'
    refine ⟨(h.spliced i l₁ l₂ m, some it'), ((h.spliced i l₁ l₂ m).shape, some ⟨i, l₁.getLast?, buf⟩), ?_, ?_,
      (hs.link _ _).link _ _, (hn.link _ _).link _ _, rfl, ?_⟩
    · simp only [basicStep, hins, bind, Except.bind]
    · simp only [zephyrStep, hz, bind, Except.bind]
    · have hplace : SamePlace (h.spliced i l₁ l₂ m) i _ _ := .at ha'
      have hhead : (m ++ l₂).head? = buf := by
        rw [hm.head]
        cases m with
        | nil => exact absurd rfl hne
        | cons => rfl
      rwa [hhead] at hplace
  | remove =>
    obtain ⟨it, hit, he⟩ := ho
    obtain ⟨l₁, f, l₂, ha, rfl⟩ := hcons hit he
    cases hit
    obtain ⟨it', hrem, ha'⟩ := ciRemove_at hs ha
    have hz := zephyrCiRemove_at doc hn ha
    refine ⟨((h.link (lastp i l₁) l₂.head?).cut f, some it'),
      (((h.link (lastp i l₁) l₂.head?).cut f).shape, some ⟨i, l₁.getLast?, l₂.head?⟩), ?_, ?_,
      ((hs.link _ _).link _ _).drop f, ((hn.link _ _).link _ _).drop f, rfl, .at ha'⟩
    · simp only [basicStep, hrem, bind, Except.bind]
    · simp only [zephyrStep, hz, bind, Except.bind]
  | detach =>
    obtain ⟨it, hit, he⟩ := ho
    obtain ⟨l₁, f, l₂, ha, rfl⟩ := hcons hit he
    cases hit
    obtain ⟨hdet, hc⟩ := ciDetach_at hs ha
    have hz := zephyrCiDetach_at doc hs hn ha
    refine ⟨((h.link (lastp i l₁) none).unref (f :: l₂), none),
      (((h.link (lastp i l₁) none).unref (f :: l₂)).shape, none),
      ?_, ?_, (hs.link _ _).unref _, (hn.link _ _).unref _, rfl, .none hc⟩
    · simp only [basicStep, hdet, bind, Except.bind]
    · simp only [zephyrStep, hz, bind, Except.bind]

/-- **Two implementations of one cursor**: in every run from corresponding chains on they agree, the iterator splits the
chain into visited and remaining fragments and is at the end in both or in none, and every operation that is allowed
succeeds in both. -/
theorem cursors_agree {api : NetBufApi ι} (doc : api.Documented) {i : ι} {h₀ : Heap ι} {l : List Nat} (hs : h₀.Sound)
    (hn : h₀.Counted) (hc : h₀.Chain (h₀.slots i) l) {s : BasicSide ι × ZephyrSide ι}
    (hr : (cursors api i h₀).Reach (fun s op => Allowed i s.1 op) s) :
    Agree i s.1 s.2 ∧ (∀ it ∈ s.1.2, ∀ it' ∈ s.2.2, zephyrCiEoi it' = ciEoi it) ∧
      ∀ op, Allowed i s.1 op → ∃ s', (cursors api i h₀).step s op = some s' := by
  have hagree : Agree i s.1 s.2 := by
    refine hr.invariant (I := fun s => Agree i s.1 s.2) ?_ fun s op s' _ hi ho hst => ?_
    · rintro s rfl
      exact ⟨hs, hn, rfl, .none hc⟩
    · obtain ⟨b, z, hb, hz, ha⟩ := hi.step doc ho
      simp only [cursors, hb, hz, Option.some.injEq] at hst
      rw [← hst]
      exact ha
  refine ⟨hagree, fun it hit it' hit' => ?_, fun op ho => ?_⟩
  · have hplace := hagree.place
    rw [Option.mem_def.mp hit, Option.mem_def.mp hit'] at hplace
    exact hplace.eoi
  obtain ⟨b, z, hb, hz, -⟩ := hagree.step doc ho
  exact ⟨(b, z), by simp only [cursors, hb, hz]⟩

/-! ## The functions of `net_buf` -/

/-- The buffers from `p` on, at most `n` of them. -/
def NetHeap.walk (z : NetHeap ι) : Nat → Option Nat → List Nat
  | _, none => []
  | 0, some _ => []
  | n + 1, some f =>
    match z.bufs f with
    | none => []
    | some x => f :: z.walk n x.frags

omit [DecidableEq ι] in
theorem NetHeap.Chain.walk_eq {z : NetHeap ι} (hc : z.Chain p l) {n : Nat} (hn : l.length ≤ n) : z.walk n p = l := by
  induction l generalizing p n with
  | nil => cases hc.path; cases n <;> rfl
  | cons f l ih =>
    obtain ⟨-, x, hx⟩ := hc.live f List.mem_cons_self
    obtain ⟨n, rfl⟩ := exists_fuel hn
    have hnext : z.next f = x.frags := by rw [NetHeap.next, hx]; rfl
    have ht : z.Chain x.frags l := ⟨hnext ▸ hc.path.2, fun g hg => hc.live g (List.mem_cons_of_mem _ hg)⟩
    rw [hc.path.1, NetHeap.walk, hx]
    simp only [ih ht (Nat.le_of_succ_le_succ hn)]

/-- The buffers from `p` on. -/
def NetHeap.chain (z : NetHeap ι) (p : Option Nat) : List Nat := z.walk z.count p

omit [DecidableEq ι] in
theorem NetHeap.Chain.chain_eq {z : NetHeap ι} (hc : z.Chain p l) : z.chain p = l := by
  refine hc.walk_eq ?_
  have hsub : l ⊆ List.range z.count := fun f hf => List.mem_range.mpr (hc.live f hf).1
  have hle := (List.Nodup.subperm hc.path.nodup hsub).length_le
  rwa [List.length_range] at hle

/-- The functions of `net_buf` that the iterators call. -/
def netBuf : NetBufApi ι where
  fragInsert z parent frag :=
    match parent, (z.chain frag).getLast? with
    | some p, some last => .ok ((z.link last (z.next p)).link p frag)
    | _, _ => .error .null
  fragAdd z head frag :=
    match (z.chain head).getLast? with
    | some last => .ok (z.link last frag, head)
    | none => .error .null
  fragDel z parent frag :=
    match frag with
    | some f => .ok ((((parent.elim z fun p => z.link p (z.next f)).link f none).drop f), z.next f)
    | none => .error .null
  unref z p := .ok (z.unref (z.chain p))

omit [DecidableEq ι] in
theorem netBuf_documented : (netBuf : NetBufApi ι).Documented where
  fragInsert z p f m last hc _ _ := by simp only [netBuf, hc.chain_eq, List.getLast?_concat]
  fragAdd z head frag m last hc := by simp only [netBuf, hc.chain_eq, List.getLast?_concat]
  fragDel z parent f _ _ := rfl
  unref z p l hc := by simp only [netBuf, hc.chain_eq]

/-- A buffer of two fragments, and another one of one fragment that has a second reference. -/
def threeFrags : Heap (Fin 2) := heapOf (fun i => if i = 0 then some 0 else some 2)
  [⟨⟨.own 0, 0⟩, ⟨.own 0, 0⟩, 4, 8, false, 1, some 1, 0⟩, ⟨⟨.own 1, 0⟩, ⟨.own 1, 0⟩, 4, 8, false, 1, none, 0⟩,
    ⟨⟨.own 2, 0⟩, ⟨.own 2, 0⟩, 4, 8, false, 2, none, 0⟩]

/-- An insert at the head, and a remove behind it. -/
theorem cursors_agree_run : ∃ s : BasicSide (Fin 2) × ZephyrSide (Fin 2), Agree 0 s.1 s.2 ∧
    s.1.1.chain (s.1.1.slots 0) = some [2, 1] ∧ s.2.2 = some ⟨0, some 2, some 1⟩ ∧ s.2.1.released = [0] := by
  obtain ⟨s, hr, h₁, h₂, h₃⟩ := Lts.Reach.run (M := cursors netBuf (0 : Fin 2) threeFrags)
    (P := fun s op => Allowed 0 s.1 op) (s := ((threeFrags, none), (threeFrags.shape, none)))
    (Q := fun s => s.1.1.chain (s.1.1.slots 0) = some [2, 1] ∧ s.2.2 = some ⟨0, some 2, some 1⟩ ∧ s.2.1.released = [0])
    rfl [.init, .insert (some 2), .next, .remove] (by decide)
  have hc : threeFrags.Chain (threeFrags.slots 0) [0, 1] := chain_of_walk (n := 3) (by decide)
  exact ⟨s, (cursors_agree netBuf_documented (heapOf_sound _ _) (heapOf_counted _ (by decide)) hc hr).1, h₁, h₂, h₃⟩

end Gabs.Pbuf
