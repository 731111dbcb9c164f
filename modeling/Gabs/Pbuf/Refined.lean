import Gabs.Lib.Refine
import Gabs.Pbuf.Edits

/-!
# Packet buffers are ropes of bytes: every run

- `op_gives`: every operation that the ropes allow; `Reads`: what the client reads;
- `Permitted`, `ropes_refine`: in every run the heap shows what the ropes are, and no operation that they allow fails;
- `Smooth`, `strings`, `strings_refine`: what is left of it for a client that does not look at the pieces.
-/

namespace Gabs.Pbuf

open Gabs.Lib

variable {ι : Type} [DecidableEq ι] {h h' : Heap ι} {i j : ι} {c : ι → List Nat} {a a' : Ropes ι} {r : Rope UInt8}
  {o : Op ι} {granted : Bool}

/-! ## One operation -/

/-- The sizes of the buffers are `size_t`. -/
def Ropes.Sized (a : Ropes ι) : Prop := ∀ i, (a i).size < 2 ^ 64

theorem Ropes.Sized.become (hz : a.Sized) (ha : a.become i r = some a') : a'.Sized := by
  obtain ⟨hsize, rfl⟩ := become_eq ha
  intro k
  by_cases hk : k = i
  · subst hk
    rwa [Function.update_self]
  · rw [Function.update_of_ne hk]
    exact hz k

theorem Ropes.Sized.join (hz : a.Sized) (ha : a.join i j r = some a') : a'.Sized := by
  obtain ⟨hij, ha⟩ := Option.ite_none_right_eq_some.mp ha
  refine Ropes.Sized.become (a := Function.update a j []) (fun k => ?_) ha
  by_cases hk : k = j
  · subst hk
    rw [Function.update_self]
    exact Nat.two_pow_pos 64
  · rw [Function.update_of_ne hk]
    exact hz k

theorem Ropes.Sized.edit (hz : a.Sized) {k : Nat} {ok : Piece UInt8 → Bool} {g : Piece UInt8 → Piece UInt8}
    (ha : a.edit i k ok g = some a') : a'.Sized := by
  obtain ⟨p, -, ha⟩ := Option.bind_eq_some_iff.mp ha
  exact hz.become (Option.ite_none_right_eq_some.mp ha).2

/-- **The sizes stay `size_t`.** -/
theorem Ropes.Sized.step (hz : a.Sized) (ha : a.step granted o = some a') : a'.Sized := by
  cases o with
  | decref | stripHead | put => exact hz.become ha
  | chainFront | chainBack => exact hz.join ha
  | new | clone | stripTail | remove | detach => exact hz.become (Option.ite_none_right_eq_some.mp ha).2
  | insert => exact hz.join (Option.ite_none_right_eq_some.mp ha).2
  | chainAt =>
    obtain ⟨p, -, ha⟩ := Option.bind_eq_some_iff.mp ha
    exact hz.join ha
  | reserveHead | reserveTail | releaseHead | releaseTail => exact hz.edit ha

/-- **One operation**, where the ropes allow it. -/
theorem op_gives (hs : h.Shows c a) (hz : a.Sized)
    (hok : o.allocates = true → h.grants h.asked = true ∨ h.ndebug = true)
    (hstep : a.step (h.grants h.asked) o = some a') : Gives (h.op o) a' := by
  cases o with
  | new i alloc size =>
    obtain ⟨⟨hi, hsize⟩, hb⟩ := Option.ite_none_right_eq_some.mp hstep
    obtain ⟨-, rfl⟩ := become_eq hb
    exact new_gives hs (hok rfl) hi hsize alloc
  | clone i j offset size alloc =>
    obtain ⟨⟨hi, hsize, hle⟩, hb⟩ := Option.ite_none_right_eq_some.mp hstep
    obtain ⟨-, rfl⟩ := become_eq hb
    exact clone_gives hs (hok rfl) (hz j) hi hsize hle alloc
  | decref i =>
    obtain ⟨-, rfl⟩ := become_eq hstep
    exact decref_gives hs i
  | chainFront i j => exact chainFront_gives hs hstep
  | chainBack i j => exact chainBack_gives hs hstep
  | chainAt i j offset =>
    obtain ⟨p, hcut, hj⟩ := Option.bind_eq_some_iff.mp hstep
    exact chainAt_gives hs (hz i) hcut hj
  | stripHead i n =>
    obtain ⟨-, rfl⟩ := become_eq hstep
    exact stripHead_gives hs (hz i) n
  | stripTail i n =>
    obtain ⟨hn, hb⟩ := Option.ite_none_right_eq_some.mp hstep
    obtain ⟨-, rfl⟩ := become_eq hb
    exact stripTail_gives hs (hz i) hn
  | put i data =>
    obtain ⟨-, rfl⟩ := become_eq hstep
    exact put_gives hs i data
  | insert i j k =>
    obtain ⟨hk, hj⟩ := Option.ite_none_right_eq_some.mp hstep
    exact insert_gives hs hk hj
  | remove i k =>
    obtain ⟨hk, hb⟩ := Option.ite_none_right_eq_some.mp hstep
    obtain ⟨-, rfl⟩ := become_eq hb
    exact remove_gives hs hk
  | detach i k =>
    obtain ⟨hk, hb⟩ := Option.ite_none_right_eq_some.mp hstep
    obtain ⟨-, rfl⟩ := become_eq hb
    exact detach_gives hs hk
  | reserveHead i k data => exact reserveHead_gives hs hstep
  | reserveTail i k data => exact reserveTail_gives hs hstep
  | releaseHead i k n => exact releaseHead_gives hs hstep
  | releaseTail i k n => exact releaseTail_gives hs hstep

/-! ## What the client reads -/

/-- **What the client reads** of its buffers is what the ropes are. -/
structure Heap.Reads (h : Heap ι) (a : Ropes ι) : Prop where
  okay : ∀ i, gabsPbufOkay (h.slots i) = !(a i).isEmpty
  size : ∀ i, gabsPbufSize h (h.slots i) = .ok (a i).size
  copy : ∀ i offset maxSize, gabsPbufCopy h (h.slots i) offset maxSize = .ok (((a i).elems.drop offset).take maxSize)
  headroom : ∀ i, gabsPbufHeadroom h (h.slots i) = .ok ((a i).head?.elim 0 Piece.head)
  tailroom : ∀ i, gabsPbufTailroom h (h.slots i) = .ok (a i).tail

omit [DecidableEq ι] in
theorem Heap.Shows.reads (hs : h.Shows c a) (hz : ∀ i, (a i).size < 2 ^ 64) : h.Reads a where
  okay i := by
    have hlen := hs.length i
    rw [gabsPbufOkay, (hs.chain i).head]
    cases hc : c i with
    | nil =>
      rw [hc, List.length_nil] at hlen
      rw [List.length_eq_zero_iff.mp hlen.symm]
      rfl
    | cons f l =>
      rw [hc, List.length_cons] at hlen
      cases ha : a i with
      | nil =>
        rw [ha, List.length_nil] at hlen
        cases hlen
      | cons p r => rfl
  size i := by
    have htotal := hs.size i
    rw [gabsPbufSize_eq hs.sound (hs.chain i) (by rw [htotal]; exact hz i), htotal]
  copy i offset maxSize := by
    rw [gabsPbufCopy_eq hs.sound (hs.chain i) (by rw [hs.size i]; exact hz i) (hs.readable i), hs.content i]
  headroom i := by
    have hrope := hs.rope i
    have hhead := (hs.chain i).head
    cases hc : c i with
    | nil =>
      rw [hc] at hhead hrope
      rw [← hrope, hhead]
      rfl
    | cons f l =>
      obtain ⟨x, hx⟩ := hs.whole i f (by simp [hc])
      rw [hc] at hhead hrope
      have hdata : ciHeadroom h (⟨some f, .param⟩ : Ci ι) = .ok x.headroom := by
        simp only [ciHeadroom, deref_of hx.frag, bind, Except.bind]
      have hrun : gabsPbufHeadroom h (some f) = ciHeadroom h ⟨some f, .param⟩ := rfl
      rw [← hrope, hhead, List.head?_cons, hrun, hdata, rope_cons, piece_of hx.frag]
      rfl
  tailroom i := by
    have hrope := hs.rope i
    have hhead := (hs.chain i).head
    rcases List.eq_nil_or_concat (c i) with hc | ⟨l, f, hc⟩
    · rw [hc] at hhead hrope
      rw [← hrope, hhead]
      rfl
    · rw [List.concat_eq_append] at hc
      obtain ⟨x, hx⟩ := hs.whole i f (by simp [hc])
      have hchain := hs.chain i
      rw [hc] at hchain hrope
      rw [gabsPbufTailroom_eq hs.sound hchain hx.frag, ← hrope, rope_append, rope_cons, rope_nil, Rope.tail,
        List.getLast?_concat, piece_of hx.frag]
      rfl

/-! ## Every run -/

/-- **The ropes allow the operation**; where it asks for memory, that is there, or assertions are compiled out. -/
def Permitted (h : Heap ι) (o : Op ι) : Prop :=
  (o.allocates = true → h.grants h.asked = true ∨ h.ndebug = true) ∧ (h.ropes.step (h.grants h.asked) o).isSome = true

instance (h : Heap ι) (o : Op ι) : Decidable (Permitted h o) := inferInstanceAs (Decidable (_ ∧ _))

/-- **The heap is a refinement of the ropes**: it has come about as they have, the client reads what they are, and an
operation that they allow succeeds and does what it does to them. -/
structure Heap.Refines (h : Heap ι) : Prop where
  reach : (ropeOps ι).Reach (fun _ _ => True) h.ropes
  reads : h.Reads h.ropes
  step : ∀ o, Permitted h o → ∃ h', h.op o = .ok h' ∧ (ropeOps ι).step h.ropes (o, h.grants h.asked) = some h'.ropes

/-- The ropes that a heap of a run shows, and how they have come about. -/
theorem shows_of_reach {Q : Ropes ι → Op ι → Prop} (hr : (ops ι).Reach (fun h o => Permitted h o ∧ Q h.ropes o) h) :
    ∃ a, (ropeOps ι).Reach (fun a o => Q a o.1) a ∧ a.Sized ∧ ∃ c, h.Shows c a := by
  apply hr.refine
  · rintro h ⟨hslots, hfrags, -, -⟩
    refine ⟨fun _ => [], fun _ => rfl, fun _ => Nat.two_pow_pos 64, fun _ => [], ?_⟩
    refine ⟨fun f x hx => ?_, fun i => ?_, by simp, by simp, fun _ => rfl⟩
    · rw [hfrags f] at hx
      cases hx
    · rw [hslots i]
      exact chain_nil
  · rintro h o h' a - ⟨hz, c, hs⟩ ⟨⟨hok, hsome⟩, hQ⟩ hst
    rw [hs.ropes] at hsome hQ
    obtain ⟨a', ha'⟩ := Option.isSome_iff_exists.mp hsome
    obtain ⟨h₁, c', hrun, hs'⟩ := op_gives hs hz hok ha'
    obtain rfl : h₁ = h' := Except.ok.inj (hrun.symm.trans (ops_step hst))
    exact ⟨a', .one (a := (o, h.grants h.asked)) hQ ha', hz.step ha', c', hs'⟩

/-- **Packet buffers are ropes of bytes**, in every run. -/
theorem ropes_refine (hr : (ops ι).Reach Permitted h) : h.Refines := by
  have hall := hr.mono (Q := fun h o => Permitted h o ∧ True) fun _ _ ho => ⟨ho, trivial⟩
  obtain ⟨a, ha, hz, c, hs⟩ := shows_of_reach (Q := fun _ _ => True) hall
  have hropes := hs.ropes
  refine ⟨by rwa [hropes], by rw [hropes]; exact hs.reads hz, fun o ho => ?_⟩
  obtain ⟨hok, hsome⟩ := ho
  rw [hropes] at hsome ⊢
  obtain ⟨a', ha'⟩ := Option.isSome_iff_exists.mp hsome
  obtain ⟨h', c', hrun, hs'⟩ := op_gives hs hz hok ha'
  refine ⟨h', hrun, ?_⟩
  rw [hs'.ropes]
  exact ha'

/-- Two buffers: a header is put before a clone, which is put behind what is left of its source. -/
theorem ropes_refine_run : ∃ h : Heap (Fin 2), (ops (Fin 2)).Reach Permitted h ∧
    h.ropes 0 = [⟨2, [3, 4, 5], 0⟩, ⟨0, [9, 4, 5], 0⟩] ∧ h.Refines := by
  have r₀ : (ops (Fin 2)).Reach Permitted (heapOf (fun _ => none) []) := .init ⟨fun _ => rfl, fun _ => rfl, rfl, rfl⟩
  have r₁ := r₀.step (a := Op.new 0 0 5) (by decide) rfl
  have r₂ := r₁.step (a := Op.put 0 [1, 2, 3, 4, 5]) (by decide) rfl
  have r₃ := r₂.step (a := Op.clone 1 0 2 3 0) (by decide) rfl
  have r₄ := r₃.step (a := Op.releaseHead 1 0 1) (by decide) rfl
  have r₅ := r₄.step (a := Op.reserveHead 1 0 [9]) (by decide) rfl
  have r₆ := r₅.step (a := Op.chainBack 0 1) (by decide) rfl
  have r₇ := r₆.step (a := Op.stripHead 0 2) (by decide) rfl
  exact ⟨_, r₇, by decide, ropes_refine r₇⟩

/-! ## Without the pieces -/

/-- The bytes of the buffers. -/
def Heap.strings (h : Heap ι) : ι → List UInt8 := fun i => h.content ((h.chain (h.slots i)).getD [])

/-- **What an operation means for the bytes alone.** One at the `k`-th fragment means nothing for them. -/
def stringStep (s : ι → List UInt8) (granted : Bool) : Op ι → Option (ι → List UInt8)
  | .new i _ _ | .decref i => some (Function.update s i [])
  | .clone i j offset size _ =>
    some (Function.update s i (if granted then ((s j).drop offset).take size else []))
  | .chainFront i j => some (Function.update (Function.update s j []) i (s j ++ s i))
  | .chainBack i j => some (Function.update (Function.update s j []) i (s i ++ s j))
  | .chainAt i j offset =>
    some (Function.update (Function.update s j []) i ((s i).take offset ++ (s j ++ (s i).drop offset)))
  | .stripHead i n => some (Function.update s i ((s i).drop n))
  | .stripTail i n => some (Function.update s i ((s i).take ((s i).length - n)))
  | .put i data => some (Function.update s i (s i ++ data))
  | .insert .. | .remove .. | .detach .. | .reserveHead .. | .reserveTail .. | .releaseHead .. | .releaseTail .. => none

/-- **The buffers as strings of bytes.** -/
def stringOps (ι : Type) [DecidableEq ι] : Lts (ι → List UInt8) (Op ι × Bool) where
  init s := ∀ i, s i = []
  step s o := stringStep s o.2 o.1

/-- **The client does not look at the pieces**: it puts no more than the last fragment has room for, when no other one
has any; it strips no more off the tail than there is; and it has no iterators. -/
def Smooth (a : Ropes ι) : Op ι → Prop
  | .put i data => (a i).Tight ∧ data.length ≤ (a i).tail
  | .stripTail i n => n ≤ (a i).size
  | .insert .. | .remove .. | .detach .. | .reserveHead .. | .reserveTail .. | .releaseHead .. | .releaseTail .. =>
    False
  | _ => True

instance (a : Ropes ι) (o : Op ι) : Decidable (Smooth a o) := by
  unfold Smooth; split <;> infer_instance

theorem elems_update (a : Ropes ι) (i : ι) (r : Rope UInt8) :
    (fun k => (Function.update a i r k).elems) = Function.update (fun k => (a k).elems) i r.elems := by
  funext k
  by_cases hk : k = i
  · subst hk
    rw [Function.update_self, Function.update_self]
  · rw [Function.update_of_ne hk, Function.update_of_ne hk]

theorem elems_become (ha : a.become i r = some a') :
    (fun k => (a' k).elems) = Function.update (fun k => (a k).elems) i r.elems := by
  obtain ⟨-, rfl⟩ := become_eq ha
  exact elems_update a i r

theorem elems_join (ha : a.join i j r = some a') :
    (fun k => (a' k).elems) = Function.update (Function.update (fun k => (a k).elems) j []) i r.elems := by
  obtain ⟨-, -, rfl⟩ := join_eq ha
  rw [elems_update, elems_update, Rope.elems_nil]

/-- **An operation on ropes is one on their bytes.** -/
theorem step_elems (ha : a.step granted o = some a') (hsm : Smooth a o) :
    stringStep (fun k => (a k).elems) granted o = some fun k => (a' k).elems := by
  cases o with
  | new i alloc size =>
    obtain ⟨-, hb⟩ := Option.ite_none_right_eq_some.mp ha
    rw [elems_become hb, stringStep]
    cases granted <;> rfl
  | clone i j offset size alloc =>
    obtain ⟨-, hb⟩ := Option.ite_none_right_eq_some.mp ha
    rw [elems_become hb, stringStep]
    cases granted with
    | false => rfl
    | true => simp [Piece.full]
  | decref i => rw [elems_become ha, stringStep, Rope.elems_nil]
  | chainFront i j => rw [elems_join ha, stringStep, Rope.elems_append]
  | chainBack i j => rw [elems_join ha, stringStep, Rope.elems_append]
  | chainAt i j offset =>
    obtain ⟨p, hcut, hj⟩ := Option.bind_eq_some_iff.mp ha
    obtain ⟨p₁, p₂⟩ := p
    obtain ⟨e, hsize⟩ := Rope.cut_eq hcut
    have helems : (a i).elems = p₁.elems ++ p₂.elems := by rw [e, Rope.elems_append]
    have htake : (a i).elems.take offset = p₁.elems := by rw [helems, ← hsize]; exact List.take_left
    have hdrop : (a i).elems.drop offset = p₂.elems := by rw [helems, ← hsize]; exact List.drop_left
    rw [elems_join hj, stringStep, htake, hdrop]
    by_cases hzero : offset = 0
    · rw [hzero, List.take_zero] at htake
      rw [if_pos hzero, Rope.elems_append, helems, ← htake, List.nil_append, List.nil_append]
    · rw [if_neg hzero, Rope.elems_append, Rope.elems_append]
  | stripHead i n =>
    have hall : ((a i).elems.drop n).take ((a i).size - n) = (a i).elems.drop n := by
      apply List.take_of_length_le
      rw [List.length_drop]
      exact Nat.le_refl _
    rw [elems_become ha, stringStep, Rope.slice_elems, hall]
  | stripTail i n =>
    obtain ⟨-, hb⟩ := Option.ite_none_right_eq_some.mp ha
    have hle : n ≤ (a i).size := hsm
    rw [elems_become hb, stringStep, if_pos hle, Rope.slice_elems, List.drop_zero]
    rfl
  | put i data =>
    have hall : data.take (a i).tail = data := List.take_of_length_le hsm.2
    rw [elems_become ha, stringStep, Rope.fill_elems hsm.1, hall]
  | insert | remove | detach | reserveHead | reserveTail | releaseHead | releaseTail => exact absurd hsm not_false

end Gabs.Pbuf
