import Gabs.Lib.Logged
import Gabs.Pbuf.Bytes
import Gabs.Pbuf.Kept

/-!
# Packet buffers: where bytes are put

- `Heap.Leads`: the fragments of a buffer, whatever becomes of the chain behind them;
- `Heap.Free`: the bytes of a buffer that are not in use;
- `gabsPbufPutLogged`: `gabs_pbuf_put`, with the stores that it makes;
- `putLoopLogged_kept`, `gabsPbufPutLogged_kept`: it passes its assertions and stores to free bytes only.
-/

namespace Gabs.Pbuf

open Gabs.Lib

variable {ι : Type} {S : Prop} {h₀ h₁ h : Heap ι} {N : Nat} {A : Ptr → Prop} {p : Option Nat} {f n : Nat} {x : Frag}
  {it : Ci ι}

/-- Fragment `f` is among those from `p` on. -/
def Heap.Leads (h : Heap ι) (p : Option Nat) (f : Nat) : Prop := ∃ l, Path h.next p (l ++ [f]) (h.next f)

/-- The address is behind the bytes in use of a fragment from `p` on, among those that it has. -/
def Heap.Free (h : Heap ι) (p : Option Nat) (q : Ptr) : Prop :=
  ∃ f x, h.Leads p f ∧ h.frags f = some x ∧ q.block = x.base.block ∧ x.data.off + x.size ≤ q.off ∧
    q.off < x.base.off + x.cap

/-- The fragments of `h` are those of `h₁`, with more bytes in use. -/
def Grown (h₁ h : Heap ι) : Prop := ∀ f x, h.frags f = some x →
  ∃ y, h₁.frags f = some y ∧ y.base = x.base ∧ y.data = x.data ∧ y.cap = x.cap ∧ y.next = x.next ∧ y.size ≤ x.size

theorem leads_head (hx : p = some f) : h.Leads p f := ⟨[], hx, rfl⟩

theorem Heap.Leads.next {g : Nat} (hl : h.Leads p f) (hg : h.next f = some g) : h.Leads p g := by
  obtain ⟨l, hl⟩ := hl
  refine ⟨l ++ [f], path_append.mpr ⟨h.next f, hl, hg, rfl⟩⟩

/-- The bytes that a fragment reserves are free. -/
theorem Grown.free (hg : Grown h₁ h) (hf : h.Fits) (hl : h₁.Leads p f) (hx : h.frags f = some x)
    (hn : n ≤ x.tailroom) {q : Ptr} (hb : q.block = (x.data.add x.size).block) (hlo : (x.data.add x.size).off ≤ q.off)
    (hhi : q.off < (x.data.add x.size).off + n) : h₁.Free p q := by
  obtain ⟨y, hy, hbase, hdata, hcap, -, hsize⟩ := hg f x hx
  have hfits := hf.frag hx
  have hroom := hfits.tailroom
  have hle := hfits.le
  rw [hfits.headroom] at hroom
  simp only [Ptr.add] at hb hlo hhi
  refine ⟨f, y, hl, hy, ?_, ?_, ?_⟩
  · rw [hb, hbase, hfits.block]
  · rw [hdata]
    omega
  · rw [hbase, hcap]
    omega

/-- A reservation makes a fragment grow. -/
theorem Grown.reserve (hg : Grown h₁ h) (hx : h.frags f = some x) {s : Nat} (hs : x.size ≤ s)
    {h' : Heap ι} (hh' : h'.frags = Function.update h.frags f (some { x with size := s })) : Grown h₁ h' := by
  intro g y hy
  rw [hh'] at hy
  by_cases e : g = f
  · subst e
    rw [Function.update_self] at hy
    cases hy
    obtain ⟨z, hz, hbase, hdata, hcap, hnext, hsize⟩ := hg g x hx
    exact ⟨z, hz, hbase, hdata, hcap, hnext, Nat.le_trans hsize hs⟩
  · rw [Function.update_of_ne e] at hy
    exact hg g y hy

/-- What `gabs_pbuf_ci_reserve_tail` does. -/
theorem ciReserveTail_of (hf : x.Fits) {lp : Link ι} (hx : h.frags f = some x) (hn : n ≤ x.tailroom) :
    ciReserveTail h ⟨some f, lp⟩ n = .ok (h.put f { x with size := x.size + n }, x.data.add x.size) := by
  have hroom := hf.tailroom
  have hcap := hf.cap
  simp only [ciReserveTail, deref_of hx, bind, Except.bind, assert_of hn, modify_of hx]
  rw [wrap_of_lt (by omega)]

/-! ## The stores -/

/-- A `memcpy`: where it stores, and how many bytes. -/
structure Store where
  mem : Ptr
  bytes : Nat

/-- The address is among those that it stores to. -/
def Store.Covers (w : Store) (q : Ptr) : Prop :=
  q.block = w.mem.block ∧ w.mem.off ≤ q.off ∧ q.off < w.mem.off + w.bytes

/-- **The loop of `gabs_pbuf_put`, with its stores**; one that faults is among them. -/
def putLoopLogged : Nat → Heap ι → Ci ι → List UInt8 → Logged Store Fault (Heap ι)
  | 0, _, _, _ => liftM (Except.error Fault.diverges : Except Fault (Heap ι))
  | n + 1, h, it, data =>
    if data = [] ∨ ciEoi it = true then pure h
    else do
      let room ← ciTailroom h it
      let bytes := min room data.length
      let (h, mem) ← ciReserveTail h it bytes
      h.assert (decide (mem.block ≠ .null))
      Logged.note ⟨mem, bytes⟩
      h.touch mem bytes
      let h := h.store mem (data.take bytes)
      let it ← ciNext h it
      putLoopLogged n h it (data.drop bytes)

/-- `gabs_pbuf_put` of the bytes `data`, with its stores. -/
def gabsPbufPutLogged (h : Heap ι) (i : ι) (data : List UInt8) : Logged Store Fault (Heap ι) :=
  putLoopLogged h.fuel h (ciInit h (.slot i)) data

theorem putLoopLogged_result : ∀ (n : Nat) (h : Heap ι) (it : Ci ι) (data : List UInt8),
    (putLoopLogged n h it data).result = putLoop n h it data := by
  intro n
  induction n with
  | zero => exact fun _ _ _ => rfl
  | succ n ih =>
    intro h it data
    rw [putLoopLogged, putLoop]
    split
    · rfl
    · simp [ih]
      rfl

/-- **The loop of `gabs_pbuf_put`** stores to free bytes only. -/
theorem putLoopLogged_kept (hk : Kept S h₀ N A h) (hg : Grown h₁ h) (hc : Above N it.cur)
    (hit : ∀ f, it.cur = some f → h₁.Leads p f) (hA : ∀ q, h₁.Free p q → ¬ A q) (n : Nat) (data : List UInt8) :
    Logged.Upto (fun x => x = Fault.assertion → ¬ S) (fun w => ∀ q, w.Covers q → h₁.Free p q)
      (putLoopLogged n h it data) fun h' =>
        Kept S h₀ N A h' ∧ Grown h₁ h' ∧ ∀ q, ¬ h₁.Free p q → h'.byte q = h.byte q := by
  induction n generalizing h it data with
  | zero => exact Logged.upto_lift fun h => by cases h
  | succ n ih =>
    obtain ⟨cur, lp⟩ := it
    rw [putLoopLogged]
    refine Logged.upto_ite (fun _ => Logged.upto_pure ⟨hk, hg, fun _ _ => rfl⟩) fun hgo => ?_
    cases cur with
    | none => exact absurd (.inr rfl) hgo
    | some f =>
      cases hx : h.frags f with
      | none =>
        have hfreed : ciTailroom h ⟨some f, lp⟩ = .error .freed := by
          simp [ciTailroom, Heap.deref, hx, bind, Except.bind]
        rw [hfreed, Logged.lift_error_bind]
        exact Logged.upto_lift (e := .error Fault.freed) fun h => by cases h
      | some x =>
        have hfits := hk.fits.frag hx
        have hf : N ≤ f := hc f rfl
        have hle : min x.tailroom data.length ≤ x.tailroom := Nat.min_le_left _ _
        have hlen : (data.take (min x.tailroom data.length)).length = min x.tailroom data.length := by
          rw [List.length_take]
          omega
        rw [ciTailroom_of hx, Logged.lift_ok_bind]
        simp only [ciReserveTail_of hfits hx hle, Logged.lift_ok_bind]
        -- The memory that is reserved belongs to the fragment.
        have hmem : S → (x.data.add x.size).block ≠ .null := fun hs => by
          rw [Ptr.add, hfits.block]
          exact hk.based hs f x hx
        have hfree : ∀ q, Store.Covers ⟨x.data.add x.size, min x.tailroom data.length⟩ q → h₁.Free p q :=
          fun q hq => hg.free hk.fits (hit f rfl) hx hle hq.1 hq.2.1 hq.2.2
        refine (Logged.upto_lift (assert_passes _ fun hs => decide_eq_true (hmem hs))).bind fun _ _ => ?_
        refine (Logged.upto_note hfree).bind fun _ _ => ?_
        refine (Logged.upto_lift (touch_passes _ _ _)).bind fun _ _ => ?_
        set x' : Frag := { x with size := x.size + min x.tailroom data.length } with hx'
        set h' := (h.put f x').store (x.data.add x.size) (data.take (min x.tailroom data.length)) with hh'
        have hbytes : ∀ q, ¬ h₁.Free p q → h'.byte q = h.byte q := fun q hq => by
          refine store_byte_of_notMem fun hin => hq ?_
          rw [hlen] at hin
          exact hfree q hin
        have hfits' : x'.Fits := by
          have hroom := hfits.tailroom
          have hcap := hfits.cap
          have hreserved := hfits.reserve_tail hle
          rwa [wrap_of_lt (by omega)] at hreserved
        have habove : Above N x.next := hk.next_above hf hx
        have hk' : Kept S h₀ N A h' := by
          refine { hk.put hf hx hfits' rfl rfl habove with mem := fun q hq => ?_ }
          rw [hbytes q fun hfree => hA q hfree hq, hk.mem q hq]
        have hg' : Grown h₁ h' := hg.reserve hx (Nat.le_add_right _ _) rfl
        have hx₁ : h'.frags f = some x' := Function.update_self ..
        rw [ciNext_of hx₁, Logged.lift_ok_bind]
        obtain ⟨y, hy, -, -, -, hnext, -⟩ := hg f x hx
        have hit' : ∀ g, (⟨x'.next, .next f⟩ : Ci ι).cur = some g → h₁.Leads p g := fun g hgx =>
          (hit f rfl).next (by rw [next_of hy, hnext]; exact hgx)
        refine (ih hk' hg' habove hit' _).mono fun h'' hkept => ?_
        obtain ⟨hk'', hg'', hq''⟩ := hkept
        exact ⟨hk'', hg'', fun q hq => (hq'' q hq).trans (hbytes q hq)⟩

theorem grown_refl (h : Heap ι) : Grown h h := fun _ x hx => ⟨x, hx, rfl, rfl, rfl, rfl, Nat.le_refl _⟩

/-- **`gabs_pbuf_put`** passes its assertions, and stores to free bytes of the buffer only. -/
theorem gabsPbufPutLogged_kept (hk : Kept S h₀ N A h) (i : ι) (hi : Above N (h.slots i))
    (hA : ∀ q, h.Free (h.slots i) q → ¬ A q) (data : List UInt8) :
    Logged.Upto (fun x => x = Fault.assertion → ¬ S) (fun w => ∀ q, w.Covers q → h.Free (h.slots i) q)
      (gabsPbufPutLogged h i data) fun h' =>
        Kept S h₀ N A h' ∧ Grown h h' ∧ ∀ q, ¬ h.Free (h.slots i) q → h'.byte q = h.byte q :=
  putLoopLogged_kept hk (grown_refl h) hi (fun _ hcur => leads_head hcur) hA _ data

theorem gabsPbufPutLogged_result (h : Heap ι) (i : ι) (data : List UInt8) :
    (gabsPbufPutLogged h i data).result = gabsPbufPut h i data := putLoopLogged_result ..

theorem gabsPbufPut_kept (hk : Kept S h₀ N A h) (i : ι) (hi : Above N (h.slots i))
    (hA : ∀ q, h.Free (h.slots i) q → ¬ A q) (data : List UInt8) : Passes S (gabsPbufPut h i data) fun h' =>
      Kept S h₀ N A h' ∧ Grown h h' ∧ ∀ q, ¬ h.Free (h.slots i) q → h'.byte q = h.byte q := by
  rw [← gabsPbufPutLogged_result]
  exact (gabsPbufPutLogged_kept hk i hi hA data).2

end Gabs.Pbuf
