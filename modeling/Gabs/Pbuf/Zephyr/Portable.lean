import Gabs.Pbuf.Linear
import Gabs.Pbuf.Zephyr.Lockstep

/-!
# Packet buffers: the calls of a client of both implementations

- `Portable`: what a client may do that is to run on both implementations;
- `seek_tandem`, `room_tandem`, `write_tandem`: the calls at the `k`-th fragment of a buffer;
- `use_tandem`: every such call has the same outcome in both.
-/

namespace Gabs.Pbuf

open Gabs.Lib

variable {ι : Type} [DecidableEq ι] {h : Heap ι} {z : Net ι} {i : ι} {k : Nat} {l l₁ l₂ : List Nat} {it : Ci ι}
  {zt : NetCi ι} {api : NetApi ι} {netbuf : Nat → Bool} {u : Use ι} {op : RoomOp}

/-! ## Clients of both implementations -/

/-- The assertion of a call that reserves or releases bytes holds at the `k`-th fragment of buffer `i`. -/
def Heap.Roomy (h : Heap ι) (i : ι) (k : Nat) (op : RoomOp) : Prop :=
  ∀ l ∈ h.chain (h.slots i), ∀ f ∈ l[k]?, ∀ x ∈ h.frags f, op.Holds x

/-- **What a client may do on both implementations.** It makes buffers of 1 to 65535 bytes, with allocators over pools
of network buffers, and clones those whose memory is there; a buffer that is chained or inserted has fragments, none of
which is in the target; an iterator is not used at the end; no more is reserved than there is room, or released than
there is; and a buffer has at most 255 references. -/
def Portable (netbuf : Nat → Bool) (h : Heap ι) : Use ι → Prop
  | .op (.new i alloc size) => h.slots i = none ∧ netbuf alloc = true ∧ 0 < size ∧ size < 2 ^ 16
  | .op (.clone i j _ size alloc) =>
    h.slots i = none ∧ netbuf alloc = true ∧ 0 < size ∧ size < 2 ^ 16 ∧ ∀ l ∈ h.chain (h.slots j), h.Backed l
  | .op (.chainFront i j) | .op (.chainBack i j) | .op (.chainAt i j _) | .op (.insert i j _) =>
    h.slots j ≠ none ∧ h.Separate i j
  | .op (.remove i k) | .op (.detach i k) => ∀ l ∈ h.chain (h.slots i), k ≠ l.length
  | .op (.reserveHead i k data) => h.Roomy i k (.reserveHead data.length)
  | .op (.reserveTail i k data) => h.Roomy i k (.reserveTail data.length)
  | .op (.releaseHead i k n) => h.Roomy i k (.releaseHead n)
  | .op (.releaseTail i k n) => h.Roomy i k (.releaseTail n)
  | .op (.decref _) | .op (.stripHead ..) | .op (.stripTail ..) | .op (.put ..) => True
  | .newRo i alloc _ size => h.slots i = none ∧ netbuf alloc = true ∧ size < 2 ^ 16
  | .view i _ _ _ alloc => h.slots i = none ∧ netbuf alloc = true
  | .incref i j => h.slots i = none ∧ ∃ f ∈ h.slots j, ∃ x ∈ h.frags f, x.refcnt + 1 < 2 ^ 8

instance (x : Frag) (op : RoomOp) : Decidable (op.Holds x) := by
  unfold RoomOp.Holds; split <;> infer_instance

instance (h : Heap ι) (i : ι) (k : Nat) (op : RoomOp) : Decidable (h.Roomy i k op) :=
  inferInstanceAs (Decidable (∀ l ∈ h.chain (h.slots i), ∀ f ∈ l[k]?, ∀ x ∈ h.frags f, op.Holds x))

instance (netbuf : Nat → Bool) (h : Heap ι) (u : Use ι) : Decidable (Portable netbuf h u) := by
  unfold Portable; split <;> infer_instance

/-! ## One call -/

theorem ciSteps_tandem {b : Buf ι} (ht : Twin h z) (ha : AbreastAt h b l₁ l₂ it zt) (k : Nat) :
    Tandem (fun it zt => ∃ a c, AbreastAt h b a c it zt ∧ a.length = l₁.length + k) ((basic ι).ciSteps h k it)
      ((zephyr api netbuf).ciSteps z k zt) := by
  induction k generalizing l₁ l₂ it zt with
  | zero => exact ⟨l₁, l₂, ha, rfl⟩
  | succ k ih =>
    rw [Impl.ciSteps, Impl.ciSteps]
    refine (ht.next_at ha).bind fun it₁ zt₁ hn => ?_
    obtain ⟨f, a, ha₁⟩ := hn
    refine (ih ha₁).mono fun it₂ zt₂ hat => ?_
    obtain ⟨d, c, hat, hlen⟩ := hat
    refine ⟨d, c, hat, ?_⟩
    rw [hlen, List.length_append, List.length_singleton]
    omega

/-- **An iterator at the `k`-th fragment** of a buffer. -/
theorem seek_tandem (ht : Twin h z) (hl : h.Chain (h.slots i) l) (k : Nat) :
    Tandem (fun it zt => ∃ a c, AbreastAt h (.slot i) a c it zt ∧ a.length = k) ((basic ι).seek h i k)
      ((zephyr api netbuf).seek z i k) := by
  refine (ciSteps_tandem ht (ht.init (b := .slot i) hl) k).mono fun it zt hat => ?_
  obtain ⟨a, c, hat, hlen⟩ := hat
  exact ⟨a, c, hat, by rw [hlen, List.length_nil, Nat.zero_add]⟩

omit [DecidableEq ι] in
/-- The fragment at an iterator that is not at the end. -/
theorem AbreastAt.head (ht : Twin h z) (ha : AbreastAt h (.slot i) l₁ l₂ it zt)
    (hk : ∀ l ∈ h.chain (h.slots i), l₁.length ≠ l.length) : ∃ f l, l₂ = f :: l := by
  cases l₂ with
  | nil =>
    have hchain : h.chain (h.slots i) = some (l₁ ++ []) := (chain_eq_iff ht.sound).mpr ha.chain
    exact absurd (by rw [List.append_nil]) (hk _ hchain)
  | cons f l => exact ⟨f, l, rfl⟩

/-- **A call that reserves or releases bytes** at the `k`-th fragment of a buffer. -/
theorem room_tandem (doc : api.Documented) (ht : Twin h z) (hl : h.Chain (h.slots i) l) (ho : h.Roomy i k op) :
    Tandem (fun r r' => Twin r.1 r'.1 ∧ r.2 = r'.2 ∧ Adjusted h r.1)
      (do
        let it ← (basic ι).seek h i k
        op.call h it)
      (do
        let zt ← (zephyr api netbuf).seek z i k
        Net.change (op.net api) z zt op.bytes) := by
  refine (seek_tandem ht hl k).bind fun it zt hat => ?_
  obtain ⟨a, c, hat, rfl⟩ := hat
  cases c with
  | nil =>
    rw [hat.basic, hat.zephyr]
    cases op <;> exact rfl
  | cons f c =>
    obtain ⟨x, hx⟩ := hat.chain.live f (by simp)
    have hchain : h.chain (h.slots i) = some (a ++ f :: c) := (chain_eq_iff ht.sound).mpr hat.chain
    have hget : (a ++ f :: c)[a.length]? = some f := by simp
    exact ht.room doc hat hx (ho _ hchain f hget x hx)

/-- What the client does with the memory that such a call returns. -/
theorem room_bind {k₁ : Heap ι × Ptr → Except Fault (Heap ι)} {k₂ : Net ι × Ptr → Except Fault (Net ι)}
    (doc : api.Documented) (ht : Twin h z) (hl : h.Chain (h.slots i) l) (ho : h.Roomy i k op)
    (hk : ∀ (h₁ : Heap ι) (z₁ : Net ι) (q : Ptr), Twin h₁ z₁ →
      Tandem (fun r r' => Twin r r' ∧ Adjusted h₁ r) (k₁ (h₁, q)) (k₂ (z₁, q))) :
    Tandem (fun r r' => Twin r r' ∧ Adjusted h r)
      (do
        let it ← (basic ι).seek h i k
        let r ← op.call h it
        k₁ r)
      (do
        let zt ← (zephyr api netbuf).seek z i k
        let r ← Net.change (op.net api) z zt op.bytes
        k₂ r) := by
  rw [← bind_assoc, ← bind_assoc]
  refine (room_tandem doc ht hl ho).bind ?_
  rintro ⟨h₁, q⟩ ⟨z₁, _⟩ ⟨ht₁, rfl, ha₁⟩
  refine (hk h₁ z₁ q ht₁).mono fun h₂ z₂ hr => ?_
  exact ⟨hr.1, ha₁.trans hr.2⟩

/-- The client writes to the memory that it has reserved. -/
theorem write_tandem (ht : Twin h z) (q : Ptr) (data : List UInt8) :
    Tandem (fun r r' => Twin r r' ∧ Adjusted h r) ((basic ι).write h q data) ((zephyr api netbuf).write z q data) := by
  refine (tandem_eq.mpr (ht.touch q _).symm).bind fun _ _ _ => ?_
  exact ⟨ht.store q data, adjusted_store h q data⟩

/-- A use that changes the data of one buffer alone. -/
def Use.Adjusts : Use ι → Prop
  | .op (.put ..) | .op (.reserveHead ..) | .op (.reserveTail ..) | .op (.releaseHead ..) | .op (.releaseTail ..) =>
    True
  | _ => False

/-- **A call that changes the data of one buffer alone.** -/
theorem adjusts_tandem (doc : api.Documented) (ho : h.Owned []) (ht : Twin h z) (hp : Portable netbuf h u)
    (hu : u.Adjusts) :
    Tandem (fun r r' => Twin r r' ∧ Adjusted h r) ((basic ι).use h u) ((zephyr api netbuf).use z u) := by
  cases u with
  | newRo | view | incref => exact hu.elim
  | op o =>
    cases o with
    | put i data =>
      obtain ⟨l, hl⟩ := ho.slot i
      exact put_tandem doc ht hl data
    | reserveHead i k data =>
      obtain ⟨l, hl⟩ := ho.slot i
      have hroom : h.Roomy i k (.reserveHead data.length) := hp
      exact room_bind doc ht hl hroom fun h₁ z₁ q ht₁ => write_tandem ht₁ q data
    | reserveTail i k data =>
      obtain ⟨l, hl⟩ := ho.slot i
      have hroom : h.Roomy i k (.reserveTail data.length) := hp
      exact room_bind doc ht hl hroom fun h₁ z₁ q ht₁ => write_tandem ht₁ q data
    | releaseHead i k n =>
      obtain ⟨l, hl⟩ := ho.slot i
      have hroom : h.Roomy i k (.releaseHead n) := hp
      exact room_bind doc ht hl hroom fun h₁ z₁ q ht₁ => ⟨ht₁, .refl h₁⟩
    | releaseTail i k n =>
      obtain ⟨l, hl⟩ := ho.slot i
      have hroom : h.Roomy i k (.releaseTail n) := hp
      exact room_bind doc ht hl hroom fun h₁ z₁ q ht₁ => ⟨ht₁, .refl h₁⟩
    | new | clone | decref | chainFront | chainBack | chainAt | stripHead | stripTail | insert | remove | detach =>
      exact hu.elim

/-- **One call** has the same outcome in both implementations. -/
theorem use_tandem (doc : api.Documented) (ho : h.Owned []) (ht : Twin h z) (hp : Portable netbuf h u) :
    Tandem Twin ((basic ι).use h u) ((zephyr api netbuf).use z u) := by
  have hslots : (zephyr api netbuf).slots z = (basic ι).slots h := ht.slots
  have hchain : ∀ i, ∃ l, h.Chain ((basic ι).slots h i) l := ho.slot
  cases u with
  | newRo i alloc data size =>
    obtain ⟨-, hnet, hsize⟩ := hp
    refine (ht.newRo doc hnet hsize data).bind ?_
    rintro ⟨h₁, v⟩ ⟨z₁, _⟩ ⟨ht₁, rfl, -⟩
    exact ht₁.hold i v
  | view i j offset size alloc =>
    obtain ⟨l, hl⟩ := hchain j
    rw [Impl.use, Impl.use, hslots]
    refine (view_tandem doc ht hl hp.2 offset size).bind ?_
    rintro ⟨h₁, v⟩ ⟨z₁, _⟩ ⟨ht₁, rfl⟩
    exact ht₁.hold i v
  | incref i j =>
    obtain ⟨-, f, hj, x, hx, hr⟩ := hp
    have hslot : (basic ι).slots h j = some f := hj
    rw [Impl.use, Impl.use, hslots]
    simp only [hslot]
    exact (ht.incref doc hx hr).bind fun h₁ z₁ ht₁ => ht₁.hold i (some f)
  | op o =>
    rw [Impl.use, Impl.use]
    cases o with
    | new i alloc size =>
      obtain ⟨-, hnet, hpos, hsize⟩ := hp
      refine (ht.new doc hnet hpos hsize).bind ?_
      rintro ⟨h₁, v⟩ ⟨z₁, _⟩ ⟨ht₁, rfl, -⟩
      exact ht₁.hold i v
    | clone i j offset size alloc =>
      obtain ⟨-, hnet, hpos, hsize, -⟩ := hp
      obtain ⟨l, hl⟩ := hchain j
      rw [Impl.op, Impl.op, hslots]
      refine (clone_tandem doc ht hl hnet hpos hsize offset).bind ?_
      rintro ⟨h₁, v⟩ ⟨z₁, _⟩ ⟨ht₁, rfl⟩
      exact ht₁.hold i v
    | decref i =>
      obtain ⟨l, hl⟩ := hchain i
      rw [Impl.op, Impl.op, hslots]
      exact (ht.decref doc hl).bind fun h₁ z₁ ht₁ => ht₁.hold i none
    | chainFront i j =>
      obtain ⟨l, hl⟩ := hchain i
      obtain ⟨m, hm⟩ := hchain j
      rw [Impl.op, Impl.op, hslots]
      have hd := hp.2.disjoint ht.sound hl hm
      exact (chainFront_tandem doc ht hl hm hp.1 hd).bind fun h₁ z₁ ht₁ => ht₁.hold j none
    | chainBack i j =>
      obtain ⟨l, hl⟩ := hchain i
      obtain ⟨m, hm⟩ := hchain j
      rw [Impl.op, Impl.op, hslots]
      have hd := hp.2.disjoint ht.sound hl hm
      exact (chainBack_tandem doc ht hl hm hp.1 hd).bind fun h₁ z₁ ht₁ => ht₁.hold j none
    | chainAt i j offset =>
      obtain ⟨l, hl⟩ := hchain i
      obtain ⟨m, hm⟩ := hchain j
      rw [Impl.op, Impl.op, hslots]
      have hd := hp.2.disjoint ht.sound hl hm
      exact (chainAt_tandem doc ht hl hm hp.1 hd offset).bind fun h₁ z₁ ht₁ => ht₁.hold j none
    | stripHead i size =>
      obtain ⟨l, hl⟩ := hchain i
      rw [Impl.op, Impl.op, Impl.gabsPbufStripHead, Impl.gabsPbufStripHead, hslots]
      refine (gabsPbufSize_tandem ht hl).bind ?_
      rintro total _ rfl
      exact shrink_tandem doc ht hl _ _
    | stripTail i size =>
      obtain ⟨l, hl⟩ := hchain i
      rw [Impl.op, Impl.op, Impl.gabsPbufStripTail, Impl.gabsPbufStripTail, hslots]
      refine (gabsPbufSize_tandem ht hl).bind ?_
      rintro total _ rfl
      exact shrink_tandem doc ht hl _ _
    | insert i j k =>
      obtain ⟨l, hl⟩ := hchain i
      obtain ⟨m, hm⟩ := hchain j
      rw [Impl.op, Impl.op, hslots]
      have hd := hp.2.disjoint ht.sound hl hm
      refine (seek_tandem ht hl k).bind fun it zt hat => ?_
      obtain ⟨a, c, hat, -⟩ := hat
      refine (ht.insert_at doc hat.abreast hl hm hp.1 hd).bind ?_
      rintro ⟨h₁, it₁⟩ ⟨z₁, zt₁⟩ ht₁
      exact Twin.hold ht₁ j none
    | remove i k =>
      obtain ⟨l, hl⟩ := hchain i
      refine (seek_tandem ht hl k).bind fun it zt hat => ?_
      obtain ⟨a, c, hat, rfl⟩ := hat
      obtain ⟨f, c, rfl⟩ := hat.head ht hp
      refine (ht.remove doc hat).bind ?_
      rintro ⟨h₁, it₁⟩ ⟨z₁, zt₁⟩ ⟨ht₁, -⟩
      exact ht₁
    | detach i k =>
      obtain ⟨l, hl⟩ := hchain i
      refine (seek_tandem ht hl k).bind fun it zt hat => ?_
      obtain ⟨a, c, hat, rfl⟩ := hat
      obtain ⟨f, c, rfl⟩ := hat.head ht hp
      exact ht.detach doc hat
    | put | reserveHead | reserveTail | releaseHead | releaseTail =>
      exact (adjusts_tandem doc ho ht hp trivial).mono fun _ _ hr => hr.1

end Gabs.Pbuf
