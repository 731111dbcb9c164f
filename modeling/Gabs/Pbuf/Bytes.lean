import Gabs.Pbuf.Content

/-!
# Packet buffers: memory

- `Ptr.Spans`: the addresses of a run of bytes;
- `store_byte_of_notMem`, `load_store`, `store_append`: what a store changes;
- `touch_part`: a part of accessible memory is accessible.
-/

namespace Gabs.Pbuf

variable {ι : Type} {h : Heap ι} {p q : Ptr} {n : Nat} {a b : List UInt8} {l : List Nat}

/-- The address `q` is one of the `n` from `p` on. -/
def Ptr.Spans (p : Ptr) (n : Nat) (q : Ptr) : Prop := q.block = p.block ∧ p.off ≤ q.off ∧ q.off < p.off + n

instance (p : Ptr) (n : Nat) (q : Ptr) : Decidable (p.Spans n q) := inferInstanceAs (Decidable (_ ∧ _ ∧ _))

theorem Ptr.Spans.mono {m : Nat} (hq : p.Spans m q) (hm : m ≤ n) : p.Spans n q :=
  ⟨hq.1, hq.2.1, Nat.lt_of_lt_of_le hq.2.2 (Nat.add_le_add_left hm _)⟩

theorem spans_add {j k : Nat} (hj : j + k ≤ n) (hq : (p.add j).Spans k q) : p.Spans n q := by
  obtain ⟨hb, hlo, hhi⟩ := hq
  simp only [Ptr.add] at hb hlo hhi
  exact ⟨hb, by omega, by omega⟩

/-- Other bytes stay. -/
theorem store_byte_of_notMem (hq : ¬ p.Spans a.length q) : (h.store p a).byte q = h.byte q := if_neg hq

/-- The bytes that are stored. -/
theorem store_byte {i : Nat} (hi : i < a.length) : (h.store p a).byte (p.add i) = a[i] := by
  have hin : (p.add i).Spans 1 (p.add i) := ⟨rfl, Nat.le_refl _, Nat.lt_succ_self _⟩
  have hspans : p.Spans a.length (p.add i) := spans_add hi hin
  have hget : (h.store p a).byte (p.add i) = a.getD ((p.add i).off - p.off) 0 := if_pos hspans
  rw [hget, Ptr.add, Nat.add_sub_cancel_left, List.getD_eq_getElem?_getD, List.getElem?_eq_getElem hi, Option.getD_some]

/-- **What is stored is read again.** -/
theorem load_store (h : Heap ι) (p : Ptr) (a : List UInt8) : (h.store p a).load p a.length = a := by
  refine List.ext_getElem (by simp [Heap.load]) fun i h₁ h₂ => ?_
  simp only [Heap.load, List.getElem_map, List.getElem_range]
  exact store_byte h₂

/-- A store in two parts. -/
theorem store_append (h : Heap ι) (p : Ptr) (a b : List UInt8) :
    (h.store p a).store (p.add a.length) b = h.store p (a ++ b) := by
  refine Heap.ext rfl rfl rfl rfl rfl rfl ?_ rfl rfl
  funext k o
  show ((h.store p a).store (p.add a.length) b).byte ⟨k, o⟩ = (h.store p (a ++ b)).byte ⟨k, o⟩
  by_cases hin : p.Spans (a ++ b).length ⟨k, o⟩
  · obtain ⟨rfl, hlo, hhi⟩ := hin
    obtain ⟨i, rfl⟩ := Nat.exists_eq_add_of_le hlo
    have hi : i < (a ++ b).length := Nat.lt_of_add_lt_add_left hhi
    have hboth : (h.store p (a ++ b)).byte (p.add i) = (a ++ b)[i] := store_byte hi
    refine Eq.trans ?_ hboth.symm
    by_cases hia : i < a.length
    · have hout : ¬ (p.add a.length).Spans b.length (p.add i) := fun hs => by
        have hlo := hs.2.1
        simp only [Ptr.add] at hlo
        omega
      rw [List.getElem_append_left hia]
      exact (store_byte_of_notMem hout).trans (store_byte hia)
    · obtain ⟨j, rfl⟩ := Nat.exists_eq_add_of_le (Nat.le_of_not_lt hia)
      have hj : j < b.length := by
        rw [List.length_append] at hi
        exact Nat.lt_of_add_lt_add_left hi
      rw [List.getElem_append_right (Nat.le_add_right _ _)]
      simp only [Nat.add_sub_cancel_left]
      have hsame : p.add (a.length + j) = (p.add a.length).add j := by simp [Ptr.add, Nat.add_assoc]
      rw [← store_byte (h := h.store p a) (p := p.add a.length) hj, ← hsame]
      rfl
  · have hina : ¬ p.Spans a.length ⟨k, o⟩ := fun hs => hin (hs.mono (by simp))
    have hinb : ¬ (p.add a.length).Spans b.length ⟨k, o⟩ := fun hs => hin (spans_add (by simp) hs)
    rw [store_byte_of_notMem hin, store_byte_of_notMem hinb, store_byte_of_notMem hina]

@[simp] theorem store_frags (h : Heap ι) (p : Ptr) (a : List UInt8) : (h.store p a).frags = h.frags := rfl

@[simp] theorem store_nil (h : Heap ι) (p : Ptr) : h.store p [] = h := by
  refine Heap.ext rfl rfl rfl rfl rfl rfl ?_ rfl rfl
  funext k o
  exact if_neg fun hs => Nat.not_lt_of_le hs.2.1 hs.2.2

/-- Bytes apart from those that are stored. -/
theorem store_content (ha : ∀ q ∈ h.addrs l, ¬ p.Spans a.length q) : (h.store p a).content l = h.content l := by
  have hsame : (h.store p a).addrs l = h.addrs l := addrs_congr fun _ _ => rfl
  rw [Heap.content, hsame, Heap.content]
  exact List.map_congr_left fun q hq => store_byte_of_notMem (ha q hq)

/-- A part of accessible memory is accessible. -/
theorem touch_part {j k : Nat} (ht : h.touch p n = .ok ()) (hjk : j + k ≤ n) : h.touch (p.add j) k = .ok () := by
  unfold Heap.touch at ht ⊢
  by_cases hk : k = 0
  · rw [if_pos hk]
  · rw [if_neg (by omega)] at ht
    rw [if_neg hk]
    cases hb : p.block with
    | null => rw [hb] at ht; cases ht
    | own f =>
      rw [hb] at ht
      simp only [Ptr.add, hb] at ht ⊢
      split at ht
      · cases ht
      · rename_i hlive
        split at ht
        · rename_i hle
          rw [if_neg hlive, if_pos (by omega)]
        · cases ht
    | user k' =>
      rw [hb] at ht
      simp only [Ptr.add, hb] at ht ⊢
      split at ht
      · rename_i hle
        rw [if_pos (by omega)]
      · cases ht

end Gabs.Pbuf
