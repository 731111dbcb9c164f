import Gabs.Lib.Runs
import Gabs.Lib.Writes
import Gabs.Pbuf.Put
import Gabs.Pbuf.Seek

/-!
# Packet buffers: where a put goes

- `Frag.room`, `Heap.room`: the free addresses behind the bytes of a fragment, and of a chain;
- `Heap.puts`, `putLoop_eq`: what `gabs_pbuf_put` makes of a chain;
- `Heap.grown`, `puts_addrs`, `puts_byte`: the addresses of the bytes of the chain afterwards, and the bytes;
- `put_contiguous`: the bytes that are put are one run of the content exactly when the room that is filled is.
-/

namespace Gabs.Pbuf

open Gabs.Lib

variable {ι : Type} {h h' : Heap ι} {i : ι} {p : Option Nat} {f n : Nat} {x : Frag} {l l₁ l₂ : List Nat}
  {data : List UInt8}

/-! ## Room -/

/-- The free addresses behind the bytes in use. -/
def Frag.room (x : Frag) : List Ptr := (List.range x.tailroom).map (x.data.add x.size).add

/-- The free addresses of a chain, in its order. -/
def Heap.room (h : Heap ι) (l : List Nat) : List Ptr := l.flatMap fun f => (h.frags f).elim [] Frag.room

@[simp] theorem room_length (x : Frag) : x.room.length = x.tailroom := by simp [Frag.room]

@[simp] theorem room_nil (h : Heap ι) : h.room [] = [] := rfl

theorem room_cons (hx : h.frags f = some x) (l : List Nat) : h.room (f :: l) = x.room ++ h.room l := by
  simp [Heap.room, hx]

@[simp] theorem room_append (h : Heap ι) (l m : List Nat) : h.room (l ++ m) = h.room l ++ h.room m := by
  simp [Heap.room]

theorem room_congr (hl : ∀ f ∈ l, h'.frags f = h.frags f) : h'.room l = h.room l := by
  induction l with
  | nil => rfl
  | cons f l ih =>
    simp only [Heap.room, List.flatMap_cons, hl f List.mem_cons_self]
    exact congrArg _ (ih fun g hg => hl g (List.mem_cons_of_mem _ hg))

/-- A fragment whose room is filled up to some point. -/
theorem addrs_fill {k : Nat} (hk : k ≤ x.tailroom) :
    Frag.addrs { x with size := x.size + k } = x.addrs ++ x.room.take k := by
  have hrange : (List.range x.tailroom).take k = List.range k := by rw [List.take_range, Nat.min_eq_left hk]
  rw [Frag.room, ← List.map_take, hrange, Frag.addrs, Frag.addrs, List.range_add, List.map_append, List.map_map]
  refine congrArg _ (List.map_congr_left fun j _ => ?_)
  simp [Ptr.add, Nat.add_assoc]

/-- A store is a sequence of writes. -/
theorem store_writes {q : Ptr} {a : List UInt8} {r : Nat} (hr : a.length ≤ r) :
    (h.store q a).byte = writes h.byte (((List.range r).map q.add).zip a) := by
  induction a generalizing h q r with
  | nil => rw [store_nil, List.zip_nil_right, writes_nil]
  | cons b a ih =>
    obtain ⟨r, rfl⟩ := exists_fuel hr
    have hfirst : (h.store q [b]).byte = Function.update h.byte q b := by
      funext c
      by_cases hc : c = q
      · subst hc
        rw [Function.update_self]
        exact store_byte (a := [b]) (i := 0) (Nat.succ_pos _)
      · rw [Function.update_of_ne hc]
        refine store_byte_of_notMem fun hs => hc ?_
        obtain ⟨hb, hlo, hhi⟩ := hs
        rw [List.length_singleton] at hhi
        cases c
        cases q
        simp only [Ptr.mk.injEq] at hb hlo hhi ⊢
        exact ⟨hb, by omega⟩
    have hrest : q.add ∘ Nat.succ = (q.add 1).add := funext fun j => by
      simp [Ptr.add, Nat.succ_eq_add_one, Nat.add_comm, Nat.add_left_comm]
    rw [← List.singleton_append, ← store_append, List.length_singleton, List.singleton_append,
      ih (Nat.le_of_succ_le_succ hr), hfirst,
      List.range_succ_eq_map, List.map_cons, List.map_map, hrest, List.zip_cons_cons, writes_cons]
    rfl

/-! ## What a put makes of a chain -/

/-- The heap after `data` has been put into fragment `f`. -/
def Heap.filled (h : Heap ι) (f : Nat) (x : Frag) (data : List UInt8) : Heap ι :=
  (h.put f { x with size := x.size + data.length }).store (x.data.add x.size) data

/-- The heap after `data` has been put into the fragments `l`, as much into each as it has room for. -/
def Heap.puts (h : Heap ι) : List Nat → List UInt8 → Heap ι
  | [], _ => h
  | f :: l, data =>
    match h.frags f with
    | none => h
    | some x => (h.filled f x (data.take x.tailroom)).puts l (data.drop x.tailroom)

theorem filled_frags_of_ne {g : Nat} (hg : g ≠ f) (x : Frag) (data : List UInt8) :
    (h.filled f x data).frags g = h.frags g := Function.update_of_ne hg ..

/-- The fragments of a chain without `f` are as they were. -/
theorem filled_frags_of_notMem (hf : f ∉ l) (x : Frag) (data : List UInt8) :
    ∀ g ∈ l, (h.filled f x data).frags g = h.frags g := fun g hg =>
  filled_frags_of_ne (fun e => hf (by rw [← e]; exact hg)) _ _

/-- A chain without `f` stays live. -/
theorem filled_live (hl : ∀ g ∈ l, ∃ y, h.frags g = some y) (hf : f ∉ l) (x : Frag) (data : List UInt8) :
    ∀ g ∈ l, ∃ y, (h.filled f x data).frags g = some y := fun g hg => by
  rw [filled_frags_of_notMem hf x data g hg]
  exact hl g hg

theorem filled_frags (h : Heap ι) (f : Nat) (x : Frag) (data : List UInt8) :
    (h.filled f x data).frags f = some { x with size := x.size + data.length } := Function.update_self ..

theorem filled_nil (hx : h.frags f = some x) : h.filled f x [] = h := by
  have hself : Function.update h.frags f (some x) = h.frags := by
    rw [← hx]
    exact Function.update_eq_self f h.frags
  rw [Heap.filled, store_nil, List.length_nil, Nat.add_zero, Heap.put, hself]

theorem puts_cons (hx : h.frags f = some x) (l : List Nat) (data : List UInt8) :
    h.puts (f :: l) data = (h.filled f x (data.take x.tailroom)).puts l (data.drop x.tailroom) := by
  rw [Heap.puts, hx]

theorem puts_nil (hl : ∀ f ∈ l, ∃ x, h.frags f = some x) : h.puts l [] = h := by
  induction l with
  | nil => rfl
  | cons f l ih =>
    obtain ⟨x, hx⟩ := hl f List.mem_cons_self
    rw [puts_cons hx, List.take_nil, List.drop_nil, filled_nil hx]
    exact ih fun g hg => hl g (List.mem_cons_of_mem _ hg)

/-- The room of the fragments `l` is accessible. -/
def Heap.Open (h : Heap ι) (l : List Nat) : Prop :=
  ∀ f ∈ l, ∀ x, h.frags f = some x → h.touch (x.data.add x.size) x.tailroom = .ok ()

/-- **The address of each fragment that is reached** by a put of `n` bytes is one, as far as assertions are checked. -/
def Heap.Based (h : Heap ι) (l : List Nat) (n : Nat) : Prop :=
  ∀ l₁ f l₂, l = l₁ ++ f :: l₂ → (h.room l₁).length < n → ∀ x, h.frags f = some x →
    h.ndebug = true ∨ x.data.block ≠ .null

theorem based_cons (hx : h.frags f = some x) : h.Based (f :: l) n ↔
    (0 < n → h.ndebug = true ∨ x.data.block ≠ .null) ∧ h.Based l (n - x.tailroom) := by
  constructor
  · intro hb
    refine ⟨fun hn => hb [] f l rfl hn x hx, fun l₁ g l₂ hl hlt => ?_⟩
    refine hb (f :: l₁) g l₂ (by rw [hl]; rfl) ?_
    rw [room_cons hx, List.length_append, room_length]
    omega
  · rintro ⟨hfirst, hrest⟩ l₁ g l₂ hl hlt y hy
    cases l₁ with
    | nil =>
      obtain ⟨rfl, rfl⟩ := List.cons.inj hl
      obtain rfl : x = y := Option.some.inj (hx.symm.trans hy)
      exact hfirst hlt
    | cons c l₁ =>
      obtain ⟨rfl, rfl⟩ := List.cons.inj hl
      rw [room_cons hx, List.length_append, room_length] at hlt
      exact hrest l₁ g l₂ rfl (by omega) y hy

theorem based_congr (hl : ∀ f ∈ l, h'.frags f = h.frags f) (hd : h'.ndebug = h.ndebug) (hb : h.Based l n) :
    h'.Based l n := by
  intro l₁ f l₂ e hlt x hx
  subst e
  rw [room_congr fun g hg => hl g (List.mem_append_left _ hg)] at hlt
  rw [hl f (by simp)] at hx
  rw [hd]
  exact hb l₁ f l₂ rfl hlt x hx

/-- Memory is as accessible as before. -/
theorem touch_filled (hx : h.frags f = some x) (data : List UInt8) (q : Ptr) (n : Nat) :
    (h.filled f x data).touch q n = h.touch q n := by
  unfold Heap.touch
  split
  · rfl
  · cases q.block with
    | null | user => rfl
    | own g =>
      by_cases e : g = f
      · subst e
        simp only [filled_frags, hx, reduceCtorEq, if_false]
        rfl
      · simp only [filled_frags_of_ne e]
        rfl

/-- One turn of the loop of `gabs_pbuf_put`. -/
theorem putLoop_step (hx : h.frags f = some x) (hf : x.Fits) (ho : h.touch (x.data.add x.size) x.tailroom = .ok ())
    (hd : data ≠ []) (n : Nat) (lp : Link ι) : putLoop (n + 1) h ⟨some f, lp⟩ data =
      if h.ndebug = true ∨ x.data.block ≠ .null
        then putLoop n (h.filled f x (data.take x.tailroom)) ⟨x.next, .next f⟩ (data.drop x.tailroom)
        else .error .assertion := by
  have hle : min x.tailroom data.length ≤ x.tailroom := Nat.min_le_left _ _
  have hlen : (data.take x.tailroom).length = min x.tailroom data.length := List.length_take
  have htake : data.take (min x.tailroom data.length) = data.take x.tailroom :=
    List.take_eq_take_iff.mpr (by omega)
  have hdrop : data.drop (min x.tailroom data.length) = data.drop x.tailroom := by
    rcases Nat.le_total x.tailroom data.length with hr | hr
    · rw [Nat.min_eq_left hr]
    · rw [Nat.min_eq_right hr, List.drop_eq_nil_of_le hr, List.drop_eq_nil_of_le (Nat.le_refl _)]
  have hstep : ¬ (data = [] ∨ ciEoi (⟨some f, lp⟩ : Ci ι) = true) := fun h => h.elim hd nofun
  simp only [putLoop, if_neg hstep, ciTailroom_of hx, bind, Except.bind, ciReserveTail_of hf hx hle]
  set h₁ := h.put f { x with size := x.size + min x.tailroom data.length }
  have hassert : h₁.assert (decide ((x.data.add x.size).block ≠ .null)) =
      if h.ndebug = true ∨ x.data.block ≠ .null then .ok () else .error .assertion := by
    simp only [Heap.assert, Bool.or_eq_true, decide_eq_true_eq, ne_eq]
    rfl
  have htouch : h₁.touch (x.data.add x.size) (min x.tailroom data.length) = .ok () := by
    have hpart : h.touch (x.data.add x.size) (min x.tailroom data.length) = .ok () := by
      have := touch_part (j := 0) ho (k := min x.tailroom data.length) (by omega)
      exact this
    have hfill := touch_filled hx (data.take x.tailroom) (x.data.add x.size) (min x.tailroom data.length)
    rw [hpart, Heap.filled, hlen] at hfill
    exact hfill
  have hnext : (h₁.store (x.data.add x.size) (data.take x.tailroom)).frags f =
      some { x with size := x.size + min x.tailroom data.length } := Function.update_self ..
  rw [hassert]
  by_cases hbase : h.ndebug = true ∨ x.data.block ≠ .null
  · simp only [if_pos hbase, htouch, htake, hdrop, ciNext_of hnext, Heap.filled, hlen]
    rfl
  · simp only [if_neg hbase]

/-- **The loop of `gabs_pbuf_put`**: it fills the room of the chain, unless it reaches a fragment without an address. -/
theorem putLoop_eq (hc : h.Chain p l) (hn : l.length < n) (hf : ∀ f ∈ l, ∀ x, h.frags f = some x → x.Fits)
    (ho : h.Open l) (lp : Link ι) (data : List UInt8) :
    (h.Based l data.length → putLoop n h ⟨p, lp⟩ data = .ok (h.puts l data)) ∧
      (¬ h.Based l data.length → putLoop n h ⟨p, lp⟩ data = .error .assertion) := by
  induction l generalizing h p n lp data with
  | nil =>
    cases hc.path
    obtain ⟨n, rfl⟩ := exists_fuel hn
    have hrun : putLoop (n + 1) h ⟨none, lp⟩ data = .ok h := if_pos (Or.inr rfl)
    exact ⟨fun _ => hrun, fun hb => absurd (fun l₁ f l₂ hl => by simp at hl) hb⟩
  | cons f l ih =>
    obtain ⟨n, rfl⟩ := exists_fuel hn
    obtain rfl : p = some f := hc.head
    obtain ⟨x, hx⟩ := hc.live f List.mem_cons_self
    by_cases hd : data = []
    · subst hd
      have hrun : putLoop (n + 1) h ⟨some f, lp⟩ [] = .ok h := if_pos (Or.inl rfl)
      refine ⟨fun _ => by rw [hrun, puts_nil hc.live], fun hb => ?_⟩
      exact absurd (fun _ _ _ _ hlt => absurd hlt (Nat.not_lt_zero _)) hb
    · have hpos : 0 < data.length := List.length_pos_of_ne_nil hd
      rw [putLoop_step hx (hf f List.mem_cons_self x hx) (ho f List.mem_cons_self x hx) hd, based_cons hx]
      split
      · rename_i hbase
        -- The rest of the chain is as it was.
        set h₁ := h.filled f x (data.take x.tailroom) with hh₁
        have hnot : f ∉ l := (List.nodup_cons.mp hc.path.nodup).1
        have hsame : ∀ g ∈ l, h₁.frags g = h.frags g := filled_frags_of_notMem hnot _ _
        have hsame' : ∀ g ∈ l, h.frags g = h₁.frags g := fun g hg => (hsame g hg).symm
        have hc₁ : h₁.Chain x.next l := (hc.tail hx).congr (fun g hg => by rw [Heap.next, hsame g hg, Heap.next])
          fun g hg => by rw [hsame g hg]; exact hc.live g (List.mem_cons_of_mem _ hg)
        have hf₁ : ∀ g ∈ l, ∀ y, h₁.frags g = some y → y.Fits := fun g hg y hy =>
          hf g (List.mem_cons_of_mem _ hg) y (by rwa [← hsame g hg])
        have ho₁ : h₁.Open l := fun g hg y hy => by
          rw [hh₁, touch_filled hx]
          exact ho g (List.mem_cons_of_mem _ hg) y (by rwa [← hsame g hg])
        obtain ⟨hok, hfail⟩ := ih hc₁ (Nat.lt_of_succ_lt_succ hn) hf₁ ho₁ (.next f) (data.drop x.tailroom)
        rw [List.length_drop] at hok hfail
        refine ⟨fun hb => ?_, fun hb => hfail fun hb₁ => hb ⟨fun _ => hbase, based_congr hsame' rfl hb₁⟩⟩
        rw [hok (based_congr hsame rfl hb.2), puts_cons hx]
      · rename_i hbase
        exact ⟨fun hb => absurd (hb.1 hpos) hbase, fun _ => rfl⟩

/-- What `puts` leaves alone. -/
theorem puts_frags_of_notMem {g : Nat} (hg : g ∉ l) (data : List UInt8) : (h.puts l data).frags g = h.frags g := by
  induction l generalizing h data with
  | nil => rfl
  | cons f l ih =>
    rw [List.mem_cons, not_or] at hg
    cases hx : h.frags f with
    | none => simp only [Heap.puts, hx]
    | some x => rw [puts_cons hx, ih hg.2, filled_frags_of_ne hg.1]

theorem puts_slots (h : Heap ι) (l : List Nat) (data : List UInt8) : (h.puts l data).slots = h.slots := by
  induction l generalizing h data with
  | nil => rfl
  | cons f l ih =>
    cases hx : h.frags f with
    | none => simp only [Heap.puts, hx]
    | some x =>
      rw [puts_cons hx, ih]
      rfl

/-- The fragments are live, and lead on as before. -/
theorem puts_next (h : Heap ι) (l : List Nat) (data : List UInt8) (g : Nat) {y : Frag} (hy : h.frags g = some y) :
    ∃ s, (h.puts l data).frags g = some { y with size := s } := by
  induction l generalizing h data y with
  | nil => exact ⟨y.size, hy⟩
  | cons f l ih =>
    cases hx : h.frags f with
    | none =>
      simp only [Heap.puts, hx]
      exact ⟨y.size, hy⟩
    | some x =>
      rw [puts_cons hx]
      by_cases e : g = f
      · subst e
        obtain rfl : x = y := Option.some.inj (hx.symm.trans hy)
        obtain ⟨s, hs⟩ := ih (h.filled g x (data.take x.tailroom)) (data.drop x.tailroom) (filled_frags h g x _)
        exact ⟨s, hs⟩
      · exact ih _ _ ((filled_frags_of_ne e _ _).trans hy)

theorem Heap.Chain.puts (hc : h.Chain p l₁) (l : List Nat) (data : List UInt8) : (h.puts l data).Chain p l₁ := by
  refine hc.congr (fun f hf => ?_) fun f hf => ?_
  · obtain ⟨y, hy⟩ := hc.live f hf
    obtain ⟨s, hs⟩ := puts_next h l data f hy
    rw [next_of hs, next_of hy]
  · obtain ⟨y, hy⟩ := hc.live f hf
    obtain ⟨s, hs⟩ := puts_next h l data f hy
    exact ⟨_, hs⟩

/-! ## The bytes afterwards -/

/-- The addresses of the bytes of a chain after `n` bytes have been put. -/
def Heap.grown (h : Heap ι) : List Nat → Nat → List Ptr
  | [], _ => []
  | f :: l, n =>
    match h.frags f with
    | none => h.grown l n
    | some x => x.addrs ++ (x.room.take n ++ h.grown l (n - x.tailroom))

theorem grown_cons (hx : h.frags f = some x) (l : List Nat) (n : Nat) :
    h.grown (f :: l) n = x.addrs ++ (x.room.take n ++ h.grown l (n - x.tailroom)) := by rw [Heap.grown, hx]

theorem grown_congr (hl : ∀ f ∈ l, h'.frags f = h.frags f) (n : Nat) : h'.grown l n = h.grown l n := by
  induction l generalizing n with
  | nil => rfl
  | cons f l ih =>
    have hrest := ih fun g hg => hl g (List.mem_cons_of_mem _ hg)
    simp only [Heap.grown, hl f List.mem_cons_self, hrest]

theorem puts_addrs (hl : ∀ f ∈ l, ∃ x, h.frags f = some x) (hnd : l.Nodup) (data : List UInt8) :
    (h.puts l data).addrs l = h.grown l data.length := by
  induction l generalizing h data with
  | nil => rfl
  | cons f l ih =>
    obtain ⟨hf, hnd⟩ := List.nodup_cons.mp hnd
    obtain ⟨x, hx⟩ := hl f List.mem_cons_self
    have hsame := filled_frags_of_notMem (h := h) hf x (data.take x.tailroom)
    have hlive := filled_live (fun g hg => hl g (List.mem_cons_of_mem _ hg)) hf x (data.take x.tailroom)
    have hfirst : ((h.filled f x (data.take x.tailroom)).puts l (data.drop x.tailroom)).frags f =
        some { x with size := x.size + (data.take x.tailroom).length } := by
      rw [puts_frags_of_notMem hf, filled_frags]
    have htake : x.room.take (data.take x.tailroom).length = x.room.take data.length := by
      rw [List.length_take]
      exact List.take_eq_take_iff.mpr (by rw [room_length]; omega)
    rw [puts_cons hx, addrs_cons hfirst, ih hlive hnd, grown_congr hsame, grown_cons hx, List.length_drop,
      addrs_fill (by rw [List.length_take]; exact Nat.min_le_left _ _), htake, List.append_assoc]

theorem puts_byte (hl : ∀ f ∈ l, ∃ x, h.frags f = some x) (hnd : l.Nodup) (data : List UInt8) :
    (h.puts l data).byte = writes h.byte ((h.room l).zip data) := by
  induction l generalizing h data with
  | nil => rfl
  | cons f l ih =>
    obtain ⟨hf, hnd⟩ := List.nodup_cons.mp hnd
    obtain ⟨x, hx⟩ := hl f List.mem_cons_self
    have hsame := filled_frags_of_notMem (h := h) hf x (data.take x.tailroom)
    have hlive := filled_live (fun g hg => hl g (List.mem_cons_of_mem _ hg)) hf x (data.take x.tailroom)
    have hfirst : (h.filled f x (data.take x.tailroom)).byte = writes h.byte (x.room.zip (data.take x.tailroom)) :=
      store_writes (h := h.put f _) (by rw [List.length_take]; exact Nat.min_le_left _ _)
    rw [puts_cons hx, ih hlive hnd, room_congr hsame, hfirst, room_cons hx, zip_split, room_length, writes_append]

/-- The bytes of the chain are those that were there, and those that are put. -/
theorem grown_perm (hl : ∀ f ∈ l, ∃ x, h.frags f = some x) (n : Nat) :
    (h.grown l n).Perm (h.addrs l ++ (h.room l).take n) := by
  induction l generalizing n with
  | nil => simp [Heap.grown]
  | cons f l ih =>
    obtain ⟨x, hx⟩ := hl f List.mem_cons_self
    have hrest := ih (fun g hg => hl g (List.mem_cons_of_mem _ hg)) (n - x.tailroom)
    rw [grown_cons hx, addrs_cons hx, room_cons hx, List.take_append, room_length, List.append_assoc]
    refine List.Perm.append_left _ ((hrest.append_left _).trans ?_)
    rw [← List.append_assoc, ← List.append_assoc]
    exact List.Perm.append_right _ List.perm_append_comm

theorem grown_append (hl : ∀ f ∈ l₁, ∃ x, h.frags f = some x) (l₂ : List Nat) (n : Nat) :
    h.grown (l₁ ++ l₂) n = h.grown l₁ n ++ h.grown l₂ (n - (h.room l₁).length) := by
  induction l₁ generalizing n with
  | nil => rfl
  | cons f l₁ ih =>
    obtain ⟨x, hx⟩ := hl f List.mem_cons_self
    rw [List.cons_append, grown_cons hx, grown_cons hx, ih fun g hg => hl g (List.mem_cons_of_mem _ hg), room_cons hx,
      List.length_append, room_length, Nat.sub_sub, List.append_assoc, List.append_assoc]

/-! ## One run -/

/-- **The room that `n` bytes fill is one run**: the fragments after that of the first byte, up to and including that of
the last one, have no bytes. -/
def Heap.Unbroken (h : Heap ι) (l : List Nat) (n : Nat) : Prop :=
  ∀ l₁ f l₂, l = l₁ ++ f :: l₂ → 0 < (h.room l₁).length → (h.room l₁).length < n → h.size f = 0

/-- Fragments without bytes are passed until the room is filled. -/
theorem grown_empty (hl : ∀ f ∈ l, ∃ x, h.frags f = some x)
    (he : ∀ l₁ f l₂, l = l₁ ++ f :: l₂ → (h.room l₁).length < n → h.size f = 0) :
    h.grown l n = (h.room l).take n ++ h.addrs l := by
  induction l generalizing n with
  | nil => simp [Heap.grown]
  | cons f l ih =>
    obtain ⟨x, hx⟩ := hl f List.mem_cons_self
    have hlive : ∀ g ∈ l, ∃ y, h.frags g = some y := fun g hg => hl g (List.mem_cons_of_mem _ hg)
    have hrest : ∀ l₁ g l₂, l = l₁ ++ g :: l₂ → (h.room l₁).length < n - x.tailroom → h.size g = 0 :=
      fun l₁ g l₂ e hlt => he (f :: l₁) g l₂ (by rw [e]; rfl) (by
        rw [room_cons hx, List.length_append, room_length]
        omega)
    rw [grown_cons hx, ih hlive hrest, addrs_cons hx, room_cons hx, List.take_append, room_length]
    rcases Nat.eq_zero_or_pos n with rfl | hpos
    · simp
    · have hsize : x.addrs = [] := by
        rw [← List.length_eq_zero_iff, addrs_length, ← size_of hx]
        exact he [] f l rfl hpos
      rw [hsize, List.nil_append, List.nil_append, List.append_assoc]

/-- **An unbroken room is one run of the addresses afterwards.** -/
theorem grown_unbroken (hl : ∀ f ∈ l, ∃ x, h.frags f = some x) (hu : h.Unbroken l n) :
    ∃ u v, h.addrs l = u ++ v ∧ h.grown l n = u ++ ((h.room l).take n ++ v) := by
  induction l with
  | nil => exact ⟨[], [], rfl, by simp [Heap.grown]⟩
  | cons f l ih =>
    obtain ⟨x, hx⟩ := hl f List.mem_cons_self
    have hlive : ∀ g ∈ l, ∃ y, h.frags g = some y := fun g hg => hl g (List.mem_cons_of_mem _ hg)
    have hroom : ∀ l₁, (h.room (f :: l₁)).length = x.tailroom + (h.room l₁).length := fun l₁ => by
      rw [room_cons hx, List.length_append, room_length]
    rw [grown_cons hx, addrs_cons hx, room_cons hx, List.take_append, room_length]
    rcases Nat.eq_zero_or_pos x.tailroom with hzero | hpos
    · -- The first fragment has no room.
      have hu' : h.Unbroken l n := fun l₁ g l₂ e h₁ h₂ =>
        hu (f :: l₁) g l₂ (by rw [e]; rfl) (by rw [hroom]; omega) (by rw [hroom]; omega)
      obtain ⟨u, v, haddrs, hgrown⟩ := ih hlive hu'
      have hnil : x.room = [] := List.length_eq_zero_iff.mp (by rw [room_length, hzero])
      refine ⟨x.addrs ++ u, v, by rw [haddrs, List.append_assoc], ?_⟩
      rw [hnil, hzero, Nat.sub_zero, List.take_nil, List.nil_append, List.nil_append, hgrown, List.append_assoc]
    · -- The run begins in the first fragment.
      have he : ∀ l₁ g l₂, l = l₁ ++ g :: l₂ → (h.room l₁).length < n - x.tailroom → h.size g = 0 :=
        fun l₁ g l₂ e hlt => hu (f :: l₁) g l₂ (by rw [e]; rfl) (by rw [hroom]; omega) (by rw [hroom]; omega)
      exact ⟨x.addrs, h.addrs l, rfl, by rw [grown_empty hlive he, List.append_assoc]⟩

/-- A byte other than `b`. -/
theorem exists_other (b : UInt8) : ∃ y, b ≠ y := by
  by_cases hb : b = 0
  · exact ⟨1, by rw [hb]; decide⟩
  · exact ⟨0, hb⟩

/-- **The put is one contiguous append**: the `n` bytes are one run of the content, around which the bytes that were
there are still there. -/
def Appends (h : Heap ι) (l : List Nat) (data : List UInt8) : Prop :=
  ∃ u v, h.content l = u ++ v ∧ (h.puts l data).content l = u ++ (data ++ v)

/-- The bytes of the chain after a put, in any order. -/
theorem puts_content (hc : h.Chain p l) (data : List UInt8) :
    (h.puts l data).content l = (h.grown l data.length).map (writes h.byte ((h.room l).zip data)) := by
  rw [Heap.content, puts_addrs hc.live hc.path.nodup, puts_byte hc.live hc.path.nodup]

theorem puts_count (hc : h.Chain p l) (ha : Appends h l data) (y : UInt8) :
    ((h.addrs l).map (writes h.byte ((h.room l).zip data))).count y +
      (((h.room l).take data.length).map (writes h.byte ((h.room l).zip data))).count y =
    (h.content l).count y + data.count y := by
  obtain ⟨u, v, hold, hnew⟩ := ha
  rw [puts_content hc] at hnew
  have hperm := (grown_perm hc.live data.length).map (writes h.byte ((h.room l).zip data))
  rw [hnew, List.map_append] at hperm
  have hcount := hperm.count_eq y
  rw [List.count_append, List.count_append, List.count_append] at hcount
  rw [hold, List.count_append]
  omega

/-- Where nothing is put. -/
theorem written_apart {q : Ptr} (hq : q ∉ (h.room l).take data.length) :
    writes h.byte ((h.room l).zip data) q = h.byte q := writes_of_notMem (by rwa [map_fst_zip])

/-- Where copies of one byte are put. -/
theorem written_const {q : Ptr} {y : UInt8} (hq : q ∈ (h.room l).take n) :
    writes h.byte ((h.room l).zip (List.replicate n y)) q = y := by
  refine writes_const (by rwa [map_fst_zip, List.length_replicate]) fun p hp => ?_
  exact List.eq_of_mem_replicate (List.of_mem_zip hp).2

theorem map_written_const {w : List Ptr} {y : UInt8} (hw : ∀ q ∈ w, q ∈ (h.room l).take n) :
    w.map (writes h.byte ((h.room l).zip (List.replicate n y))) = List.replicate w.length y := by
  rw [← List.map_const']
  exact List.map_congr_left fun q hq => written_const (hw q hq)

/-- **Enough for one run**: the room is unbroken, and its addresses are different and not in use. -/
theorem appends_of (hc : h.Chain p l) (hle : data.length ≤ (h.room l).length) (hu : h.Unbroken l data.length)
    (hnd : ((h.room l).take data.length).Nodup) (hd : ∀ q ∈ (h.room l).take data.length, q ∉ h.addrs l) :
    Appends h l data := by
  obtain ⟨u, v, haddrs, hgrown⟩ := grown_unbroken hc.live hu
  have hsame : ∀ q ∈ h.addrs l, writes h.byte ((h.room l).zip data) q = h.byte q := fun q hq =>
    written_apart fun hw => hd q hw hq
  have hdata : ((h.room l).take data.length).map (writes h.byte ((h.room l).zip data)) = data := by
    rw [← zip_take]
    exact map_writes hnd (by rw [List.length_take, Nat.min_eq_left hle])
  rw [haddrs] at hsame
  refine ⟨u.map h.byte, v.map h.byte, by rw [Heap.content, haddrs, List.map_append], ?_⟩
  rw [puts_content hc, hgrown, List.map_append, List.map_append, hdata,
    List.map_congr_left fun q hq => hsame q (List.mem_append_left _ hq),
    List.map_congr_left fun q hq => hsame q (List.mem_append_right _ hq)]

/-- An address that is put to and in use: a byte would be lost. -/
theorem appends_apart (hc : h.Chain p l) (hle : n ≤ (h.room l).length)
    (ha : ∀ data : List UInt8, data.length = n → Appends h l data) : ∀ q ∈ (h.room l).take n, q ∉ h.addrs l := by
  intro q hq hin
  obtain ⟨y, hy⟩ := exists_other (h.byte q)
  have hcount := puts_count hc (ha (List.replicate n y) List.length_replicate) y
  rw [List.length_replicate, map_written_const fun q hq => hq, List.count_replicate_self, List.count_replicate_self,
    List.length_take, Nat.min_eq_left hle] at hcount
  have hless : ((h.addrs l).map h.byte).count y <
      ((h.addrs l).map (writes h.byte ((h.room l).zip (List.replicate n y)))).count y := by
    refine count_strict (fun r _ hr => ?_) hin hy (written_const hq)
    by_cases hw : r ∈ (h.room l).take n
    · exact written_const hw
    · rw [written_apart (by rwa [List.length_replicate]), hr]
  rw [Heap.content] at hcount
  omega

/-- An address that is put to twice: the first byte put there would be lost. -/
theorem appends_nodup (hc : h.Chain p l) (hle : n ≤ (h.room l).length)
    (ha : ∀ data : List UInt8, data.length = n → Appends h l data) : ((h.room l).take n).Nodup := by
  by_contra hrep
  obtain ⟨w₁, a, w₂, hw, hmem⟩ := exists_repeated hrep
  have hlen : n = w₁.length + (w₂.length + 1) := by
    have := congrArg List.length hw
    rwa [List.length_take, Nat.min_eq_left hle, List.length_append, List.length_cons] at this
  set data : List UInt8 := List.replicate w₁.length 0 ++ 1 :: List.replicate w₂.length 0 with hdata
  have hdlen : data.length = n := by simp [hdata, hlen]
  have hcount := puts_count hc (ha data hdlen) 1
  have hzip : (h.room l).zip data =
      w₁.zip (List.replicate w₁.length 0) ++ (a, 1) :: w₂.zip (List.replicate w₂.length 0) := by
    rw [← zip_take, hdlen, hw, hdata, List.zip_append (by rw [List.length_replicate]), List.zip_cons_cons]
  have hzero : ∀ w : List Ptr, ∀ p ∈ w.zip (List.replicate w.length (0 : UInt8)), p.2 = 0 := fun w p hp =>
    List.eq_of_mem_replicate (List.of_mem_zip hp).2
  -- Nowhere is the 1 read that is put there.
  have hwritten : ((h.room l).take data.length).map (writes h.byte ((h.room l).zip data)) = List.replicate n 0 := by
    have hall : ∀ q ∈ (h.room l).take data.length, writes h.byte ((h.room l).zip data) q = 0 := fun q hq => by
      have hkey : q ∈ ((h.room l).zip data).map Prod.fst := by rwa [map_fst_zip]
      rw [hzip] at hkey ⊢
      refine writes_masked (hzero w₁) (hzero w₂) ?_ hkey
      rw [map_fst_zip, List.length_replicate, List.take_length]
      exact hmem
    rw [List.map_congr_left hall, List.map_const', List.length_take, hdlen, Nat.min_eq_left hle]
  have hsame : (h.addrs l).map (writes h.byte ((h.room l).zip data)) = h.content l :=
    List.map_congr_left fun q hq => written_apart fun hw => appends_apart hc hle ha q (by rwa [← hdlen]) hq
  have hone : 0 < data.count 1 := List.count_pos_iff.mpr (by simp [hdata])
  have hnone : (List.replicate n (0 : UInt8)).count 1 = 0 := by
    rw [List.count_replicate, if_neg (by decide)]
  rw [hwritten, hsame, hnone] at hcount
  omega

/-- Bytes between two parts of the room: the bytes put would not be one run. -/
theorem appends_unbroken (hc : h.Chain p l) (hle : n ≤ (h.room l).length)
    (ha : ∀ data : List UInt8, data.length = n → Appends h l data) : h.Unbroken l n := by
  intro l₁ f l₂ e hpos hlt
  by_contra hsize
  subst e
  have hlive : ∀ g ∈ l₁, ∃ y, h.frags g = some y := fun g hg => hc.live g (List.mem_append_left _ hg)
  obtain ⟨x, hx⟩ := hc.live f (by simp)
  obtain ⟨q, rest, hq⟩ : ∃ q rest, x.addrs = q :: rest := by
    refine List.exists_cons_of_length_pos ?_
    rw [addrs_length, ← size_of hx]
    exact Nat.pos_of_ne_zero hsize
  obtain ⟨y, hy⟩ := exists_other (h.byte q)
  obtain ⟨u, v, hold, hnew⟩ := ha (List.replicate n y) List.length_replicate
  have hapart := appends_apart hc hle ha
  set w := writes h.byte ((h.room (l₁ ++ f :: l₂)).zip (List.replicate n y)) with hw
  have hsame : ∀ r ∈ h.addrs (l₁ ++ f :: l₂), w r = h.byte r := fun r hr =>
    written_apart fun hin => hapart r (by rwa [List.length_replicate] at hin) hr
  have hfill : ∀ r ∈ h.room l₁, r ∈ (h.room (l₁ ++ f :: l₂)).take n := fun r hr => by
    rw [room_append, List.take_append, List.take_of_length_le (Nat.le_of_lt hlt)]
    exact List.mem_append_left _ hr
  -- What comes before the fragment, and how it goes on.
  have hbefore : ((h.grown l₁ n).map w).Perm (h.content l₁ ++ List.replicate (h.room l₁).length y) := by
    have hperm := (grown_perm hlive n).map w
    have hold : (h.addrs l₁).map w = h.content l₁ := List.map_congr_left fun r hr =>
      hsame r (by rw [addrs_append]; exact List.mem_append_left _ hr)
    rwa [List.take_of_length_le (Nat.le_of_lt hlt), List.map_append, map_written_const hfill, hold] at hperm
  have hfirst : w q = h.byte q := hsame q (by rw [addrs_append, addrs_cons hx, hq]; simp)
  rw [puts_content hc, List.length_replicate, grown_append hlive, List.map_append, grown_cons hx, hq, List.cons_append,
    List.map_cons, ← hw, hfirst] at hnew
  have hcontent : h.content (l₁ ++ f :: l₂) = h.content l₁ ++ h.byte q :: (rest ++ h.addrs l₂).map h.byte := by
    rw [Heap.content, addrs_append, addrs_cons hx, hq, List.map_append, List.cons_append, List.map_cons, Heap.content]
  exact not_run hy hpos hlt hbefore (hcontent.symm.trans hold) hnew

/-- The last fragment has no more room than the chain. -/
theorem tailroom_le_room (hs : h.Sound) (hc : h.Chain p l) {r : Nat} (hr : gabsPbufTailroom h p = .ok r) :
    r ≤ (h.room l).length := by
  rcases List.eq_nil_or_concat l with rfl | ⟨a, f, rfl⟩
  · obtain rfl : p = none := hc.head
    obtain rfl : 0 = r := Except.ok.inj hr
    exact Nat.le_refl _
  · rw [List.concat_eq_append] at hc ⊢
    obtain ⟨x, hx⟩ := hc.live f (by simp)
    obtain rfl : x.tailroom = r := Except.ok.inj ((gabsPbufTailroom_eq hs hc hx).symm.trans hr)
    rw [room_append, room_cons hx, List.length_append, List.length_append, room_length]
    omega

/-- **A put within the reported room is one contiguous append** exactly when each fragment it reaches has an address,
the room it fills is unbroken, and the addresses there are different and not in use by the chain. -/
theorem put_contiguous (hs : h.Sound) (hc : h.Chain (h.slots i) l)
    (hf : ∀ f ∈ l, ∀ x, h.frags f = some x → x.Fits) (ho : h.Open l) {r : Nat}
    (hr : gabsPbufTailroom h (h.slots i) = .ok r) (hn : n ≤ r) :
    (∀ data : List UInt8, data.length = n → ∃ h' u v, gabsPbufPut h i data = .ok h' ∧ h'.Chain (h'.slots i) l ∧
      h.content l = u ++ v ∧ h'.content l = u ++ (data ++ v)) ↔
    h.Based l n ∧ h.Unbroken l n ∧ ((h.room l).take n).Nodup ∧ ∀ q ∈ (h.room l).take n, q ∉ h.addrs l := by
  have hle : n ≤ (h.room l).length := Nat.le_trans hn (tailroom_le_room hs hc hr)
  have hput : ∀ data : List UInt8, data.length = n →
      (h.Based l n → gabsPbufPut h i data = .ok (h.puts l data)) ∧
        (¬ h.Based l n → gabsPbufPut h i data = .error .assertion) := fun data hlen => by
    have hloop := putLoop_eq hc (hc.length_lt hs) hf ho (.slot i) data
    rwa [hlen] at hloop
  constructor
  · intro hall
    have hbased : h.Based l n := by
      by_contra hb
      obtain ⟨h', -, -, hrun, -⟩ := hall (List.replicate n 0) List.length_replicate
      rw [(hput _ List.length_replicate).2 hb] at hrun
      cases hrun
    have ha : ∀ data : List UInt8, data.length = n → Appends h l data := fun data hlen => by
      obtain ⟨h', u, v, hrun, -, hold, hnew⟩ := hall data hlen
      obtain rfl : h.puts l data = h' := Except.ok.inj (((hput data hlen).1 hbased).symm.trans hrun)
      exact ⟨u, v, hold, hnew⟩
    exact ⟨hbased, appends_unbroken hc hle ha, appends_nodup hc hle ha, appends_apart hc hle ha⟩
  · rintro ⟨hbased, hu, hnd, hd⟩ data rfl
    obtain ⟨u, v, hold, hnew⟩ := appends_of hc hle hu hnd hd
    refine ⟨h.puts l data, u, v, (hput data rfl).1 hbased, ?_, hold, hnew⟩
    rw [puts_slots]
    exact hc.puts l data

/-- A buffer of three bytes, with room for five more, and of four bytes, with room for two more. -/
def roomyHead : Heap (Fin 1) := heapOf (fun _ => some 0)
  [⟨⟨.own 0, 0⟩, ⟨.own 0, 0⟩, 3, 8, false, 1, some 1, 0⟩, ⟨⟨.own 1, 0⟩, ⟨.own 1, 2⟩, 4, 8, false, 1, none, 0⟩]

/-- Two bytes put into its first fragment. -/
theorem put_contiguous_first :
    (∀ data : List UInt8, data.length = 2 → ∃ h' u v, gabsPbufPut roomyHead 0 data = .ok h' ∧
      h'.Chain (h'.slots 0) [0, 1] ∧ roomyHead.content [0, 1] = u ++ v ∧ h'.content [0, 1] = u ++ (data ++ v)) ↔
    roomyHead.Based [0, 1] 2 ∧ roomyHead.Unbroken [0, 1] 2 ∧ ((roomyHead.room [0, 1]).take 2).Nodup ∧
      ∀ q ∈ (roomyHead.room [0, 1]).take 2, q ∉ roomyHead.addrs [0, 1] := by
  refine put_contiguous (r := 2) (heapOf_sound _ _) (chain_of_walk (n := 2) (by decide)) (fun f hf x hx => ?_)
    (fun f hf x hx => ?_) rfl (Nat.le_refl _)
  · obtain rfl | rfl : f = 0 ∨ f = 1 := by simpa using hf
    · cases hx
      exact ⟨rfl, by decide, by decide, by decide⟩
    · cases hx
      exact ⟨rfl, by decide, by decide, by decide⟩
  · obtain rfl | rfl : f = 0 ∨ f = 1 := by simpa using hf
    · cases hx
      rfl
    · cases hx
      rfl

/-- **A put that is torn**: room for one byte behind three, and for four bytes behind four more; two bytes are put. -/
theorem put_torn : ∃ h h' : Heap (Fin 1), h.chain (h.slots 0) = some [0, 1] ∧
    gabsPbufTailroom h (h.slots 0) = .ok 4 ∧ gabsPbufPut h 0 [1, 2] = .ok h' ∧ h'.chain (h'.slots 0) = some [0, 1] ∧
    h'.content [0, 1] = [0, 0, 0, 1, 0, 0, 0, 0, 2] ∧ ¬ [1, 2] <:+: h'.content [0, 1] := by
  refine ⟨heapOf (fun _ => some 0) [⟨⟨.own 0, 0⟩, ⟨.own 0, 0⟩, 3, 4, false, 1, some 1, 0⟩,
    ⟨⟨.own 1, 0⟩, ⟨.own 1, 0⟩, 4, 8, false, 1, none, 0⟩], _, by decide, rfl, rfl, by decide, by decide, by decide⟩

end Gabs.Pbuf
