import Gabs.Pbuf.Content

/-!
# Packet buffers: where the loops stop

- `Heap.Stops`, `seekLoop_stops`, `seekLoop_eq`, `seekLoop_congr`: the loop of `buf_seek`;
- `tailLoop_eq`, `gabsPbufTailroom_eq`: the last fragment;
- `backLoop_eq`, `atLoop_eq`: the loops of `gabs_pbuf_chain_back` and `gabs_pbuf_chain_at`;
- `total_boundary`: a boundary of fragments that is reached from below.
-/

namespace Gabs.Pbuf

open Gabs.Lib

variable {ι : Type} {h : Heap ι} {i : ι} {p : Option Nat} {f n : Nat} {l l₁ l₂ : List Nat} {it : Ci ι}

/-- The loop of `buf_seek` stops at some fragment of the chain `l`, when `bytes` have been passed before it: at its
first one for the offset 0, and at one up to the end of which the sizes, as a `size_t`, add up to more than the offset.
-/
def Heap.Stops (h : Heap ι) (l : List Nat) (offset bytes : Nat) : Prop :=
  l ≠ [] ∧ offset = 0 ∨ ∃ l₁ l₂, l = l₁ ++ l₂ ∧ l₁ ≠ [] ∧ offset < wrap (bytes + h.total l₁)

/-- The loop stops in the chain `f :: l` when it stops at `f`, or behind it. -/
theorem stops_cons {offset bytes : Nat} : h.Stops (f :: l) offset bytes ↔
    (offset = 0 ∨ offset < wrap (bytes + h.size f)) ∨ h.Stops l offset (wrap (bytes + h.size f)) := by
  constructor
  · rintro (⟨-, rfl⟩ | ⟨l₁, l₂, hl, hne, hlt⟩)
    · exact .inl (.inl rfl)
    · obtain ⟨g, l₁, rfl⟩ := List.exists_cons_of_ne_nil hne
      rw [List.cons_append] at hl
      cases hl
      rw [total_cons, ← Nat.add_assoc] at hlt
      cases l₁ with
      | nil => exact .inl (.inr hlt)
      | cons g l₁ => exact .inr (.inr ⟨g :: l₁, l₂, rfl, nofun, by rwa [wrap_add_left]⟩)
  · rintro ((rfl | hlt) | (⟨-, rfl⟩ | ⟨l₁, l₂, rfl, -, hlt⟩))
    · exact .inl ⟨nofun, rfl⟩
    · exact .inr ⟨[f], l, rfl, nofun, hlt⟩
    · exact .inl ⟨nofun, rfl⟩
    · exact .inr ⟨f :: l₁, l₂, rfl, nofun, by rwa [wrap_add_left, Nat.add_assoc] at hlt⟩

/-- One turn of the loop. -/
theorem seekLoop_cons {x : Frag} (hx : h.frags f = some x) (offset n : Nat) (lp : Link ι) (bytes : Nat) :
    seekLoop h offset (n + 1) ⟨some f, lp⟩ bytes =
      if offset = 0 ∨ offset < wrap (bytes + x.size) then .ok (⟨some f, lp⟩, bytes)
      else seekLoop h offset n ⟨x.next, .next f⟩ (wrap (bytes + x.size)) := by
  have heoi : ciEoi (⟨some f, lp⟩ : Ci ι) = false := rfl
  simp only [seekLoop, heoi, Bool.false_eq_true, if_false, ciSize_of hx, bind, Except.bind, ciNext_of hx]

/-- **The loop of `buf_seek`** stops at the fragment that holds the offset. -/
theorem seekLoop_stops (hc : h.Chain p l) {offset bytes : Nat} (hb : bytes ≤ offset) (hbytes : bytes < 2 ^ 64)
    (lp : Link ι) : ∃ l₁ l₂ lp', l = l₁ ++ l₂ ∧ (∀ n, l.length < n →
        seekLoop h offset n ⟨p, lp⟩ bytes = .ok (⟨l₂.head?, lp'⟩, wrap (bytes + h.total l₁))) ∧
      wrap (bytes + h.total l₁) ≤ offset ∧ (∀ f ∈ l₂.head?, offset ≤ wrap (bytes + h.total l₁) + h.size f) ∧
      (l₂ ≠ [] ↔ h.Stops l offset bytes) := by
  induction l generalizing p bytes lp with
  | nil =>
    cases hc.path
    have hsame : wrap (bytes + h.total []) = bytes := wrap_of_lt hbytes
    refine ⟨[], [], lp, rfl, fun n hn => ?_, by rwa [hsame], nofun, iff_of_false (fun hne => hne rfl) ?_⟩
    · obtain ⟨n, rfl⟩ := exists_fuel hn
      rw [hsame]
      rfl
    · rintro (⟨hne, -⟩ | ⟨l₁, l₂, hl, hne, -⟩)
      · exact hne rfl
      · exact hne (List.append_eq_nil_iff.mp hl.symm).1
  | cons f l ih =>
    obtain ⟨x, hx⟩ := hc.live f List.mem_cons_self
    obtain rfl : p = some f := hc.head
    by_cases hstop : offset = 0 ∨ offset < wrap (bytes + x.size)
    · have hsame : wrap (bytes + h.total []) = bytes := wrap_of_lt hbytes
      refine ⟨[], f :: l, lp, rfl, fun n hn => ?_, by rwa [hsame], fun g hg => ?_, iff_of_true nofun ?_⟩
      · obtain ⟨n, rfl⟩ := exists_fuel hn
        rw [seekLoop_cons hx, if_pos hstop, hsame]
        rfl
      · cases hg
        have hle := wrap_le (bytes + x.size)
        rw [hsame, size_of hx]
        omega
      · exact stops_cons.mpr (.inl (by rwa [size_of hx]))
    · have hle : wrap (bytes + x.size) ≤ offset := by omega
      obtain ⟨l₁, l₂, lp', rfl, hloop, hle', hlast, hend⟩ := ih (hc.tail hx) hle (wrap_lt _) (.next f)
      have hsum : wrap (wrap (bytes + x.size) + h.total l₁) = wrap (bytes + h.total (f :: l₁)) := by
        rw [wrap_add_left, total_cons, size_of hx, Nat.add_assoc]
      rw [hsum] at hloop hle' hlast
      refine ⟨f :: l₁, l₂, lp', rfl, fun n hn => ?_, hle', hlast, ?_⟩
      · obtain ⟨n, rfl⟩ := exists_fuel hn
        rw [seekLoop_cons hx, if_neg hstop]
        exact hloop n (Nat.lt_of_succ_lt_succ hn)
      · rw [hend, stops_cons, size_of hx, or_iff_right hstop]

/-- The loop reads nothing but the fragments of the chain. -/
theorem seekLoop_congr {h' : Heap ι} (hc : h.Chain p l) (hl : ∀ f ∈ l, h'.frags f = h.frags f) (offset n : Nat)
    (lp : Link ι) (bytes : Nat) : seekLoop h' offset n ⟨p, lp⟩ bytes = seekLoop h offset n ⟨p, lp⟩ bytes := by
  induction l generalizing p n lp bytes with
  | nil =>
    cases hc.path
    cases n <;> rfl
  | cons f l ih =>
    obtain ⟨x, hx⟩ := hc.live f List.mem_cons_self
    have hx' : h'.frags f = some x := (hl f List.mem_cons_self).trans hx
    obtain rfl : p = some f := hc.head
    cases n with
    | zero => rfl
    | succ n =>
      rw [seekLoop_cons hx, seekLoop_cons hx', ih (hc.tail hx) fun g hg => hl g (List.mem_cons_of_mem _ hg)]

/-- **`buf_seek`** in a chain whose size is a `size_t`. -/
theorem seekLoop_eq (hc : h.Chain p l) (hn : l.length < n) {offset bytes : Nat} (hb : bytes ≤ offset)
    (ht : bytes + h.total l < 2 ^ 64) (lp : Link ι) : ∃ l₁ l₂ lp', l = l₁ ++ l₂ ∧
      seekLoop h offset n ⟨p, lp⟩ bytes = .ok (⟨l₂.head?, lp'⟩, bytes + h.total l₁) ∧
      bytes + h.total l₁ ≤ offset ∧ ∀ f ∈ l₂.head?, offset ≤ bytes + h.total l₁ + h.size f := by
  obtain ⟨l₁, l₂, lp', rfl, hloop, hle, hlast, -⟩ := seekLoop_stops hc hb (by omega) lp
  rw [total_append] at ht
  rw [wrap_of_lt (by omega)] at hloop hle hlast
  exact ⟨l₁, l₂, lp', rfl, hloop n hn, hle, hlast⟩

/-- The loop of `gabs_pbuf_tailroom` stops at the last fragment. -/
theorem tailLoop_eq (hc : h.Chain p (l ++ [f])) (hn : (l ++ [f]).length < n) (lp : Link ι) :
    ∃ lp', tailLoop h n ⟨p, lp⟩ = .ok ⟨some f, lp'⟩ := by
  induction l generalizing p n lp with
  | nil =>
    obtain ⟨n, rfl⟩ := exists_fuel hn
    obtain rfl : p = some f := hc.head
    obtain ⟨x, hx⟩ := hc.live f List.mem_cons_self
    have hnext : x.next = none := (hc.tail hx).head
    have heoi : ciEoi (⟨some f, lp⟩ : Ci ι) = false := rfl
    have hend : ciEoi (⟨none, .next f⟩ : Ci ι) = true := rfl
    exact ⟨lp, by simp only [tailLoop, heoi, Bool.false_eq_true, if_false, ciNext_of hx, hnext, bind, Except.bind, hend,
      if_true]⟩
  | cons g l ih =>
    obtain ⟨n, rfl⟩ := exists_fuel hn
    obtain rfl : p = some g := hc.head
    obtain ⟨x, hx⟩ := hc.live g List.mem_cons_self
    have htail : h.Chain x.next (l ++ [f]) := hc.tail hx
    obtain ⟨lp', hloop⟩ := ih htail (Nat.lt_of_succ_lt_succ hn) (.next g)
    refine ⟨lp', ?_⟩
    have heoi : ciEoi (⟨some g, lp⟩ : Ci ι) = false := rfl
    have hnext : ciEoi (⟨x.next, .next g⟩ : Ci ι) = false := by
      rw [ciEoi, htail.head]
      cases l <;> rfl
    simp only [tailLoop, heoi, Bool.false_eq_true, if_false, ciNext_of hx, bind, Except.bind, hnext]
    exact hloop

/-- **`gabs_pbuf_tailroom`** is that of the last fragment. -/
theorem gabsPbufTailroom_eq (hs : h.Sound) (hc : h.Chain p (l ++ [f])) {x : Frag} (hx : h.frags f = some x) :
    gabsPbufTailroom h p = .ok x.tailroom := by
  obtain ⟨lp, hloop⟩ := tailLoop_eq hc (hc.length_lt hs) (.param : Link ι)
  have heoi : ciEoi (⟨some f, lp⟩ : Ci ι) = false := rfl
  simp only [gabsPbufTailroom, ciInit, hloop, bind, Except.bind, heoi, Bool.false_eq_true, if_false, ciTailroom_of hx]

/-- **The loop of `gabs_pbuf_chain_back`** goes to the end. -/
theorem backLoop_eq (ha : h.At i l₁ l₂ it) (hn : l₂.length < n) :
    ∃ it', backLoop h n it = .ok it' ∧ h.At i (l₁ ++ l₂) [] it' := by
  induction l₂ generalizing l₁ it n with
  | nil =>
    obtain ⟨n, rfl⟩ := exists_fuel hn
    exact ⟨it, by rw [backLoop, if_pos ha.eoi], by rwa [List.append_nil]⟩
  | cons f l₂ ih =>
    obtain ⟨n, rfl⟩ := exists_fuel hn
    obtain ⟨it₁, hnext, ha₁⟩ := ciNext_at ha
    obtain ⟨it', hloop, ha'⟩ := ih ha₁ (Nat.lt_of_succ_lt_succ hn)
    refine ⟨it', ?_, by rwa [List.append_assoc] at ha'⟩
    rw [backLoop, if_neg ha.not_eoi, hnext]
    exact hloop

/-- **The loop of `gabs_pbuf_chain_at`** stops before the fragment that holds the offset. -/
theorem atLoop_eq (ha : h.At i l₁ l₂ it) (hn : l₂.length < n) (offset bytes : Nat) :
    ∃ a b it' k, l₂ = a ++ b ∧ atLoop h offset n it bytes = .ok (it', k) ∧ h.At i (l₁ ++ a) b it' ∧
      (bytes ≤ offset → bytes + h.total l₂ < 2 ^ 64 →
        k = bytes + h.total a ∧ k ≤ offset ∧ ∀ f ∈ b.head?, offset < k + h.size f) := by
  induction l₂ generalizing l₁ it n bytes with
  | nil =>
    obtain ⟨n, rfl⟩ := exists_fuel hn
    exact ⟨[], [], it, bytes, rfl, by rw [atLoop, if_pos ha.eoi], by rwa [List.append_nil],
      fun hb _ => ⟨rfl, hb, nofun⟩⟩
  | cons f l₂ ih =>
    obtain ⟨n, rfl⟩ := exists_fuel hn
    obtain ⟨x, hx⟩ := ha.chain.live f (by simp)
    rw [atLoop, if_neg ha.not_eoi, ciSize_at ha hx]
    simp only [bind, Except.bind]
    by_cases hlt : offset < wrap (bytes + x.size)
    · refine ⟨[], f :: l₂, it, bytes, rfl, by rw [if_pos hlt], by rwa [List.append_nil], fun hb ht => ⟨rfl, hb, ?_⟩⟩
      intro g hg
      cases hg
      rw [total_cons, size_of hx] at ht
      rw [wrap_of_lt (by omega)] at hlt
      rwa [size_of hx]
    · obtain ⟨it₁, hnext, ha₁⟩ := ciNext_at ha
      obtain ⟨a, b, it', k, rfl, hloop, ha', hstop⟩ := ih ha₁ (Nat.lt_of_succ_lt_succ hn) (wrap (bytes + x.size))
      refine ⟨f :: a, b, it', k, rfl, ?_, by rwa [List.append_assoc] at ha', fun hb ht => ?_⟩
      · rw [if_neg hlt, hnext]
        exact hloop
      · rw [total_cons, size_of hx] at ht
        rw [wrap_of_lt (by omega)] at hlt hstop
        obtain ⟨hk, hrest⟩ := hstop (by omega) (by omega)
        refine ⟨?_, hrest⟩
        rw [hk, total_cons, size_of hx, Nat.add_assoc]

/-- The loop stops at a boundary of fragments when the offset is one. -/
theorem total_boundary {a b c d : List Nat} (e : a ++ b = c ++ d) (hle : h.total a ≤ h.total c)
    (hlast : ∀ f ∈ b.head?, h.total c < h.total a + h.size f) : h.total a = h.total c := by
  rcases List.append_eq_append_iff.mp e with ⟨m, rfl, rfl⟩ | ⟨m, rfl, rfl⟩
  · cases m with
    | nil => rw [List.append_nil]
    | cons f m =>
      have hf := hlast f rfl
      rw [total_append, total_cons] at hf
      omega
  · rw [total_append] at hle ⊢
    omega

end Gabs.Pbuf
