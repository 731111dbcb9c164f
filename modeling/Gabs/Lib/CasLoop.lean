import Gabs.Lib.Lts
import Mathlib.Data.List.Nodup
import Mathlib.Logic.Function.Basic

/-!
# Loops around a weak compare-exchange

- `CasLoop`: a loop that publishes a word with a compare-exchange: its first guess, its body, and what it returns;
- `CasLoop.attempt`: one compare-exchange, which may fail for no reason, and the body after a failure;
- `CasLoop.atomically`: what the body makes of a word. A `Sound` loop begins with a guess that its body could have
  made; then the attempt that ends it does just that to the word it finds (`attempt_ends`), and the attempts before
  change nothing (`attempt_continues`);
- `CasLoop.alone`: a loop without interference (`alone_eq`);
- `Threads.system`: any number of threads that call such loops on one word, and the history of calls and returns;
- `Threads.Linearization`: an order of calls that agrees with the history and with the meaning of each call;
- `Threads.linearizable`: there is one in every reachable state, if all loops are sound.
-/

namespace Gabs.Lib

/-! ## One loop -/

/-- The local variables: the word the next attempt expects, and the one it publishes. -/
structure Guess (σ : Type*) where
  expected : σ
  desired : σ
  deriving DecidableEq

/-- A loop that ends with `done` once an attempt succeeds. After a failed attempt that has read `w`, it returns `r` if
`next w` is `.error r`, and goes on to publish `d` if `next w` is `.ok d`. -/
structure CasLoop (σ ρ : Type*) where
  first : Guess σ
  next : σ → Except ρ σ
  done : ρ

namespace CasLoop

variable {σ ρ : Type*} [DecidableEq σ] (L : CasLoop σ ρ)

/-- One attempt on the word `w`: the word it leaves, and the next guess or the result. -/
def attempt (spurious : Bool) (w : σ) (g : Guess σ) : σ × (Guess σ ⊕ ρ) :=
  if w = g.expected ∧ spurious = false then (g.desired, .inr L.done)
  else match L.next w with
    | .ok d => (w, .inl ⟨w, d⟩)
    | .error r => (w, .inr r)

/-- What the body makes of a word, in one step. -/
def atomically (w : σ) : σ × ρ :=
  match L.next w with
  | .ok d => (d, L.done)
  | .error r => (w, r)

/-- The body makes this guess. -/
def Good (g : Guess σ) : Prop := L.next g.expected = .ok g.desired

/-- The first guess is one of the body's. -/
def Sound : Prop := L.Good L.first

variable {L} {spurious : Bool} {w w' : σ} {g g' : Guess σ} {r : ρ}

/-- An attempt that does not end the loop changes nothing, and the next guess is good. -/
theorem attempt_continues (h : L.attempt spurious w g = (w', .inl g')) : w' = w ∧ L.Good g' := by
  unfold attempt at h
  split at h
  · cases h
  · split at h
    · cases h
      exact ⟨rfl, ‹_›⟩
    · cases h

/-- An attempt with a good guess that ends the loop does what the loop means. -/
theorem attempt_ends (hg : L.Good g) (h : L.attempt spurious w g = (w', .inr r)) : L.atomically w = (w', r) := by
  unfold attempt at h
  split at h
  · rename_i heq
    cases h
    rw [atomically, heq.1, hg]
  · split at h
    · cases h
    · cases h
      rename_i hnext
      rw [atomically, hnext]

/-! ## A loop without interference -/

/-- The loop alone, on the word `w`; the list says which attempts fail for no reason. -/
def alone (L : CasLoop σ ρ) : List Bool → σ → Guess σ → Option (σ × ρ)
  | [], _, _ => none
  | b :: bs, w, g => match L.attempt b w g with
    | (w', .inl g') => alone L bs w' g'
    | (w', .inr r) => some (w', r)

theorem alone_of_good {x : σ × ρ} : ∀ {bs : List Bool} {g : Guess σ}, L.Good g → L.alone bs w g = some x →
    x = L.atomically w
  | [], _, _, h => by cases h
  | b :: bs, g, hg, h => by
    rw [alone] at h
    split at h
    · rename_i w' g' hat
      obtain ⟨hw, hg'⟩ := attempt_continues hat
      rw [hw] at h
      exact alone_of_good hg' h
    · rename_i w' r hat
      cases h
      exact (attempt_ends hg hat).symm

/-- Two attempts that may succeed are enough. -/
theorem alone_ends (w : σ) {k : Nat} (hk : 2 ≤ k) :
    ∀ (p : List Bool) (g : Guess σ), ∃ x, L.alone (p ++ List.replicate k false) w g = some x
  | [], g => by
    obtain ⟨k, rfl⟩ : ∃ j, k = j + 2 := ⟨k - 2, by omega⟩
    rw [List.nil_append, List.replicate_succ, List.replicate_succ, alone]
    split
    · rename_i w' g' hat
      unfold attempt at hat
      split at hat
      · cases hat
      · split at hat
        · cases hat
          rw [alone, attempt, if_pos ⟨rfl, rfl⟩]
          exact ⟨_, rfl⟩
        · cases hat
    · exact ⟨_, rfl⟩
  | b :: p, g => by
    rw [List.cons_append, alone]
    split
    · rename_i w' g' hat
      obtain ⟨rfl, -⟩ := attempt_continues hat
      exact alone_ends w' hk p g'
    · exact ⟨_, rfl⟩

/-- **A loop without interference** does what it means to the word, unless the first attempt succeeds. -/
theorem alone_eq (w : σ) {k : Nat} (hk : 2 ≤ k) (p : List Bool) : L.alone (p ++ List.replicate k false) w L.first =
    some (if w = L.first.expected ∧ p.head?.getD false = false then (L.first.desired, L.done) else L.atomically w) := by
  obtain ⟨b, bs, hlist, hhead⟩ : ∃ b bs, p ++ List.replicate k false = b :: bs ∧ b = p.head?.getD false := by
    cases p with
    | nil =>
      obtain ⟨k, rfl⟩ : ∃ j, k = j + 1 := ⟨k - 1, by omega⟩
      exact ⟨false, _, List.replicate_succ, rfl⟩
    | cons b p => exact ⟨b, _, List.cons_append, rfl⟩
  obtain ⟨x, hx⟩ := alone_ends (L := L) w hk p L.first
  rw [← hhead, hx]
  rw [hlist, alone] at hx
  split
  · rename_i hfirst
    rw [attempt, if_pos hfirst] at hx
    exact hx.symm
  · rename_i hfirst
    rw [attempt, if_neg hfirst] at hx
    cases hnext : L.next w with
    | ok d =>
      rw [hnext] at hx
      rw [alone_of_good (g := ⟨w, d⟩) hnext hx]
    | error r =>
      rw [hnext] at hx
      rw [atomically, hnext]
      exact hx.symm

end CasLoop

/-! ## Many loops -/

namespace Threads

/-- Where a thread is: outside, in the loop of a call, or after the loop, about to return. Calls are numbered. -/
inductive Place (σ ο ρ : Type*)
  | idle
  | loop (id : Nat) (op : ο) (g : Guess σ)
  | ended (id : Nat) (op : ο) (r : ρ)
  deriving DecidableEq

/-- The word, the number of calls, and where the threads are. -/
structure Sys (τ σ ο ρ : Type*) where
  word : σ
  calls : Nat
  place : τ → Place σ ο ρ

/-- A thread begins a call, makes an attempt, or returns. -/
inductive Act (τ ο : Type*)
  | call (th : τ) (op : ο)
  | attempt (th : τ) (spurious : Bool)
  | ret (th : τ)

/-- What clients see: the calls and the returns. -/
inductive Event (ο ρ : Type*)
  | call (id : Nat) (op : ο)
  | ret (id : Nat) (r : ρ)
  deriving DecidableEq

/-- A call and its result. -/
structure Entry (ο ρ : Type*) where
  id : Nat
  op : ο
  ret : ρ
  deriving DecidableEq

section Histories

variable {σ ο ρ : Type*} (spec : ο → σ → σ × ρ)

/-- The calls of the list, one at a time, bring the first word to the last, with the results of the list. -/
def Legal : σ → List (Entry ο ρ) → σ → Prop
  | w, [], w' => w' = w
  | w, e :: l, w' => (spec e.op w).2 = e.ret ∧ Legal (spec e.op w).1 l w'

/-- **A sequential explanation of a history** that has brought the word from `w₀` to `w`: it gives every result that was
returned, and a call that begins after another has returned comes after it. -/
structure Linearization (w₀ : σ) (h : List (Event ο ρ)) (w : σ) (l : List (Entry ο ρ)) : Prop where
  legal : Legal spec w₀ l w
  once : (l.map Entry.id).Nodup
  called : ∀ e ∈ l, .call e.id e.op ∈ h
  returned : ∀ id r, .ret id r ∈ h → ∃ e ∈ l, e.id = id ∧ e.ret = r
  order : ∀ a ∈ l, ∀ b ∈ l, [.ret a.id a.ret, .call b.id b.op].Sublist h → [a, b].Sublist l

variable {spec}

theorem legal_append {l₂ : List (Entry ο ρ)} {w' : σ} : ∀ {l₁ : List (Entry ο ρ)} {w : σ},
    Legal spec w (l₁ ++ l₂) w' ↔ ∃ v, Legal spec w l₁ v ∧ Legal spec v l₂ w'
  | [], w => ⟨fun h => ⟨w, rfl, h⟩, fun ⟨v, hv, h⟩ => by rwa [show v = w from hv] at h⟩
  | a :: l₁, w => by
    rw [List.cons_append, Legal, legal_append]
    exact ⟨fun ⟨ha, v, h₁, h₂⟩ => ⟨v, ⟨ha, h₁⟩, h₂⟩, fun ⟨v, ⟨ha, h₁⟩, h₂⟩ => ⟨ha, v, h₁, h₂⟩⟩

theorem Legal.snoc {e : Entry ο ρ} {l : List (Entry ο ρ)} {w w' w'' : σ} (hl : Legal spec w l w')
    (he : spec e.op w' = (w'', e.ret)) : Legal spec w (l ++ [e]) w'' := by
  refine legal_append.mpr ⟨w', hl, ?_⟩
  rw [Legal, he]
  exact ⟨rfl, rfl⟩

/-- Two elements in order are so before another one is added at the end. -/
theorem pair_of_concat {α : Type*} {x y z : α} {l : List α} (hne : y ≠ z) (h : [x, y].Sublist (l ++ [z])) :
    [x, y].Sublist l := by
  obtain ⟨l₁, l₂, hl, h₁, h₂⟩ := List.sublist_append_iff.mp h
  rcases List.sublist_singleton.mp h₂ with rfl | rfl
  · rw [hl, List.append_nil]
    exact h₁
  · have hlast := congrArg List.getLast? hl
    rw [List.getLast?_concat] at hlast
    cases hlast
    exact absurd rfl hne

end Histories

section Many

variable {τ σ ο ρ : Type*} [DecidableEq τ] (loops : ο → CasLoop σ ρ)

/-- The thread goes to another place. -/
def Sys.goto (s : Sys τ σ ο ρ) (th : τ) (p : Place σ ο ρ) : Sys τ σ ο ρ :=
  { s with place := Function.update s.place th p }

/-- One step. -/
def step [DecidableEq σ] (s : Sys τ σ ο ρ) : Act τ ο → Option (Sys τ σ ο ρ)
  | .call th op => match s.place th with
    | .idle => some { s.goto th (.loop s.calls op (loops op).first) with calls := s.calls + 1 }
    | _ => none
  | .attempt th spurious => match s.place th with
    | .loop id op g => match (loops op).attempt spurious s.word g with
      | (w, .inl g') => some { s.goto th (.loop id op g') with word := w }
      | (w, .inr r) => some { s.goto th (.ended id op r) with word := w }
    | _ => none
  | .ret th => match s.place th with
    | .ended _ _ _ => some (s.goto th .idle)
    | _ => none

/-- The history after one more step. -/
def record (s : Sys τ σ ο ρ) (a : Act τ ο) (_ : Sys τ σ ο ρ) (h : List (Event ο ρ)) : List (Event ο ρ) :=
  match a with
  | .call _ op => h ++ [.call s.calls op]
  | .ret th => match s.place th with
    | .ended id _ r => h ++ [.ret id r]
    | _ => h
  | .attempt _ _ => h

/-- Threads that call the loops on a word that is `w₀` at first, and the history of their calls. -/
def system [DecidableEq σ] (w₀ : σ) : Lts (Sys τ σ ο ρ × List (Event ο ρ)) (Act τ ο) :=
  Lts.record ⟨fun s => s = ⟨w₀, 0, fun _ => .idle⟩, step loops⟩ [] record

variable {loops} {w₀ : σ} {s s' : Sys τ σ ο ρ} {h : List (Event ο ρ)}

/-- The call a thread is in. -/
def Place.call : Place σ ο ρ → Option Nat
  | .idle => none
  | .loop id _ _ | .ended id _ _ => some id

/-- A call in a loop has a good guess and has not taken effect; one after it has. -/
def Place.Explained (loops : ο → CasLoop σ ρ) (h : List (Event ο ρ)) (l : List (Entry ο ρ)) : Place σ ο ρ → Prop
  | .idle => True
  | .loop id op g => (loops op).Good g ∧ .call id op ∈ h ∧ id ∉ l.map Entry.id
  | .ended id op r => ⟨id, op, r⟩ ∈ l

/-- **The invariant.** -/
structure Explained (loops : ο → CasLoop σ ρ) (w₀ : σ) (s : Sys τ σ ο ρ) (h : List (Event ο ρ)) (l : List (Entry ο ρ)) :
    Prop where
  lin : Linearization (fun op => (loops op).atomically) w₀ h s.word l
  fresh : ∀ id op, .call id op ∈ h → id < s.calls
  distinct : ∀ th th' id, (s.place th).call = some id → (s.place th').call = some id → th = th'
  places : ∀ th, (s.place th).Explained loops h l
  rest : ∀ e ∈ l, .ret e.id e.ret ∈ h ∨ ∃ th, s.place th = .ended e.id e.op e.ret

section Goto

variable {th : τ} {p : Place σ ο ρ}

theorem goto_place_self : (s.goto th p).place th = p := Function.update_self ..

/-- What holds of all threads, when one of them goes to another place. -/
theorem goto_place {P : τ → Place σ ο ρ → Prop} (hp : P th p) (hs : ∀ th', th' ≠ th → P th' (s.place th')) (th' : τ) :
    P th' ((s.goto th p).place th') := by
  rcases eq_or_ne th' th with rfl | hne
  · rwa [goto_place_self]
  · have hsame : (s.goto th p).place th' = s.place th' := Function.update_of_ne hne ..
    rw [hsame]
    exact hs th' hne

/-- No two threads are in one call, when one of them goes to a place in no other thread's call. -/
theorem goto_distinct (hd : ∀ th th' id, (s.place th).call = some id → (s.place th').call = some id → th = th')
    (hp : ∀ th' id, th' ≠ th → p.call = some id → (s.place th').call ≠ some id) (th₁ th₂ : τ) (id : Nat)
    (h₁ : ((s.goto th p).place th₁).call = some id) (h₂ : ((s.goto th p).place th₂).call = some id) : th₁ = th₂ := by
  have hsame : ∀ th', th' ≠ th → (s.goto th p).place th' = s.place th' := fun th' hne => Function.update_of_ne hne ..
  rcases eq_or_ne th₁ th with rfl | hn₁ <;> rcases eq_or_ne th₂ th₁ with rfl | hn₂
  · rfl
  · rw [goto_place_self] at h₁
    rw [hsame _ hn₂] at h₂
    exact absurd h₂ (hp _ id hn₂ h₁)
  · rfl
  · rw [hsame _ hn₁] at h₁
    rcases eq_or_ne th₂ th with rfl | hn₃
    · rw [goto_place_self] at h₂
      exact absurd h₁ (hp _ id hn₁ h₂)
    · rw [hsame _ hn₃] at h₂
      exact hd th₁ th₂ id h₁ h₂

/-- A place at which some thread is, when a thread goes to `p` from another one. -/
theorem goto_kept {q : Place σ ο ρ} (hne : s.place th ≠ q) (hq : ∃ th', s.place th' = q) :
    ∃ th', (s.goto th p).place th' = q := by
  obtain ⟨th', hq⟩ := hq
  refine ⟨th', (Function.update_of_ne ?_ ..).trans hq⟩
  rintro rfl
  exact hne hq

end Goto

variable {l : List (Entry ο ρ)} {th : τ} {id : Nat} {op : ο} {g : Guess σ} {r : ρ}

section Old

omit [DecidableEq τ]

/-- The calls that have taken effect are old. -/
theorem Explained.lt (hi : Explained loops w₀ s h l) {e : Entry ο ρ} (he : e ∈ l) : e.id < s.calls :=
  hi.fresh _ _ (hi.lin.called e he)

theorem Explained.call_lt (hi : Explained loops w₀ s h l) (hc : (s.place th).call = some id) : id < s.calls := by
  have hplace := hi.places th
  cases hp : s.place th with
  | idle =>
    rw [hp] at hc
    cases hc
  | loop id' op g =>
    rw [hp] at hc hplace
    cases hc
    exact hi.fresh _ _ hplace.2.1
  | ended id' op r =>
    rw [hp] at hc hplace
    cases hc
    exact hi.lt hplace

/-- A place stays explained when the history grows. -/
theorem Place.Explained.mono {p : Place σ ο ρ} {h' : List (Event ο ρ)} (hp : p.Explained loops h l)
    (hh : ∀ e ∈ h, e ∈ h') : p.Explained loops h' l := by
  cases p with
  | idle => trivial
  | loop id op g => exact ⟨hp.1, hh _ hp.2.1, hp.2.2⟩
  | ended id op r => exact hp

end Old

/-- A call begins. -/
theorem Explained.begin (hi : Explained loops w₀ s h l) (hsound : (loops op).Sound) (hp : s.place th = .idle) :
    Explained loops w₀ { s.goto th (.loop s.calls op (loops op).first) with calls := s.calls + 1 }
      (h ++ [.call s.calls op]) l := by
  have hold : ∀ e ∈ h, e ∈ h ++ [.call s.calls op] := fun e he => List.mem_append_left _ he
  have hnew : s.calls ∉ l.map Entry.id := by
    intro hmem
    obtain ⟨e, he, hid⟩ := List.mem_map.mp hmem
    exact absurd (hi.lt he) (hid ▸ Nat.lt_irrefl _)
  refine ⟨⟨hi.lin.legal, hi.lin.once, fun e he => hold _ (hi.lin.called e he), fun id r hr => ?_,
    fun a ha b hb hab => ?_⟩, fun id op' hc => ?_, goto_distinct hi.distinct fun th' id _ hc hc' => ?_,
    goto_place (P := fun _ p => p.Explained loops _ l) ?_ fun th' _ => (hi.places th').mono hold,
    fun e he => (hi.rest e he).imp (hold _) (goto_kept (by simp [hp]))⟩
  · rcases List.mem_append.mp hr with hr | hr
    · exact hi.lin.returned id r hr
    · cases List.mem_singleton.mp hr
  · refine hi.lin.order a ha b hb (pair_of_concat (fun he => ?_) hab)
    exact absurd (hi.lt hb) ((Event.call.inj he).1 ▸ Nat.lt_irrefl _)
  · rcases List.mem_append.mp hc with hc | hc
    · exact Nat.lt_succ_of_lt (hi.fresh id op' hc)
    · cases List.mem_singleton.mp hc
      exact Nat.lt_succ_self _
  · cases hc
    exact absurd (hi.call_lt hc') (Nat.lt_irrefl _)
  · exact ⟨hsound, List.mem_append_right _ (List.mem_singleton.mpr rfl), hnew⟩

/-- An attempt fails, and the loop goes on. -/
theorem Explained.continue {g' : Guess σ} (hi : Explained loops w₀ s h l) (hp : s.place th = .loop id op g)
    (hg : (loops op).Good g') : Explained loops w₀ (s.goto th (.loop id op g')) h l := by
  have hplace := hi.places th
  rw [hp] at hplace
  refine ⟨hi.lin, hi.fresh, goto_distinct hi.distinct fun th' id' hne hc hc' => hne ?_,
    goto_place (P := fun _ p => p.Explained loops h l) ⟨hg, hplace.2⟩ fun th' _ => hi.places th',
    fun e he => (hi.rest e he).imp_right (goto_kept (by simp [hp]))⟩
  cases hc
  exact hi.distinct th' th id hc' (by rw [hp]; rfl)

/-- **An attempt ends the loop**: this is where the call takes effect. -/
theorem Explained.end {w : σ} (hi : Explained loops w₀ s h l) (hp : s.place th = .loop id op g)
    (heff : (loops op).atomically s.word = (w, r)) :
    Explained loops w₀ { s.goto th (.ended id op r) with word := w } h (l ++ [⟨id, op, r⟩]) := by
  have hplace := hi.places th
  rw [hp] at hplace
  obtain ⟨-, hcall, hnew⟩ := hplace
  have hother : ∀ th', th' ≠ th → (s.place th').call ≠ some id := fun th' hne hc =>
    hne (hi.distinct th' th id hc (by rw [hp]; rfl))
  refine ⟨⟨hi.lin.legal.snoc heff, ?_, fun e he => ?_, fun id' r' hr => ?_, fun a ha b hb hab => ?_⟩, hi.fresh,
    goto_distinct hi.distinct fun th' id' hne hc => ?_,
    goto_place (P := fun _ p => p.Explained loops h _) (List.mem_append_right _ (List.mem_singleton.mpr rfl))
      fun th' hne => ?_, fun e he => ?_⟩
  · rw [List.map_append]
    refine List.nodup_append.mpr ⟨hi.lin.once, List.nodup_singleton _, fun a ha b hb hab => hnew ?_⟩
    have hb : b = id := List.mem_singleton.mp hb
    rwa [← hb, ← hab]
  · rcases List.mem_append.mp he with he | he
    · exact hi.lin.called e he
    · cases List.mem_singleton.mp he
      exact hcall
  · obtain ⟨e, he, heq⟩ := hi.lin.returned id' r' hr
    exact ⟨e, List.mem_append_left _ he, heq⟩
  · -- A call that has returned is in the list, so it is not the new one.
    have hal : a ∈ l := by
      rcases List.mem_append.mp ha with ha | ha
      · exact ha
      · cases List.mem_singleton.mp ha
        obtain ⟨e, he, heq, -⟩ := hi.lin.returned id r (hab.subset List.mem_cons_self)
        exact absurd (List.mem_map.mpr ⟨e, he, heq⟩) hnew
    rcases List.mem_append.mp hb with hb | hb
    · exact (hi.lin.order a hal b hb hab).trans (List.sublist_append_left ..)
    · cases List.mem_singleton.mp hb
      exact (List.singleton_sublist.mpr hal).append (List.Sublist.refl _)
  · cases hc
    exact hother th' hne
  · have hold := hi.places th'
    cases hp' : s.place th' with
    | idle => trivial
    | loop id' op' g' =>
      rw [hp'] at hold
      refine ⟨hold.1, hold.2.1, ?_⟩
      rw [List.map_append, List.mem_append, not_or]
      refine ⟨hold.2.2, fun hmem => hother th' hne ?_⟩
      have hid : id' = id := List.mem_singleton.mp hmem
      rw [hp', ← hid]
      rfl
    | ended id' op' r' =>
      rw [hp'] at hold
      exact List.mem_append_left _ hold
  · rcases List.mem_append.mp he with he | he
    · exact (hi.rest e he).imp_right (goto_kept (by simp [hp]))
    · cases List.mem_singleton.mp he
      exact .inr ⟨th, goto_place_self⟩

/-- A call returns. -/
theorem Explained.return (hi : Explained loops w₀ s h l) (hp : s.place th = .ended id op r) :
    Explained loops w₀ (s.goto th .idle) (h ++ [.ret id r]) l := by
  have hold : ∀ e ∈ h, e ∈ h ++ [.ret id r] := fun e he => List.mem_append_left _ he
  have hplace := hi.places th
  rw [hp] at hplace
  refine ⟨⟨hi.lin.legal, hi.lin.once, fun e he => hold _ (hi.lin.called e he), fun id' r' hr => ?_,
      fun a ha b hb hab => hi.lin.order a ha b hb (pair_of_concat (z := .ret id r) nofun hab)⟩,
    fun id' op' hc => ?_, goto_distinct hi.distinct nofun,
    goto_place (P := fun _ p => p.Explained loops _ l) trivial fun th' _ => (hi.places th').mono hold, fun e he => ?_⟩
  · rcases List.mem_append.mp hr with hr | hr
    · exact hi.lin.returned id' r' hr
    · cases List.mem_singleton.mp hr
      exact ⟨_, hplace, rfl, rfl⟩
  · rcases List.mem_append.mp hc with hc | hc
    · exact hi.fresh id' op' hc
    · cases List.mem_singleton.mp hc
  · rcases hi.rest e he with hr | ⟨th', hp'⟩
    · exact .inl (hold _ hr)
    · rcases eq_or_ne th' th with rfl | hne
      · rw [hp] at hp'
        cases hp'
        exact .inl (List.mem_append_right _ (List.mem_singleton.mpr rfl))
      · exact .inr ⟨th', (Function.update_of_ne hne ..).trans hp'⟩

/-- **One step.** -/
theorem Explained.step [DecidableEq σ] {a : Act τ ο} (hi : Explained loops w₀ s h l) (hsound : ∀ op, (loops op).Sound)
    (hs : step loops s a = some s') : ∃ l', Explained loops w₀ s' (record s a s' h) l' := by
  cases a with
  | call th op =>
    simp only [Threads.step] at hs
    split at hs
    · cases hs
      exact ⟨l, hi.begin (hsound op) ‹_›⟩
    · cases hs
  | attempt th spurious =>
    simp only [Threads.step] at hs
    split at hs
    · rename_i id op g hp
      have hplace := hi.places th
      rw [hp] at hplace
      split at hs
      · rename_i w g' hat
        obtain ⟨hw, hg⟩ := CasLoop.attempt_continues hat
        cases hs
        rw [hw]
        exact ⟨l, hi.continue hp hg⟩
      · rename_i w r hat
        cases hs
        exact ⟨_, hi.end hp (CasLoop.attempt_ends hplace.1 hat)⟩
    · cases hs
  | ret th =>
    simp only [Threads.step] at hs
    split at hs
    · rename_i id op r hp
      cases hs
      refine ⟨l, ?_⟩
      rw [record, hp]
      exact hi.return hp
    · cases hs

/-- **Sound loops are atomic.** In every reachable state there is an order of the calls that have returned or are about
to return, in which each of them, made at once, has its result, and which agrees with the history and the word. -/
theorem linearizable [DecidableEq σ] (hsound : ∀ op, (loops op).Sound) {x : Sys τ σ ο ρ × List (Event ο ρ)}
    (hr : (system loops w₀).Reach (fun _ _ => True) x) :
    ∃ l, Linearization (fun op => (loops op).atomically) w₀ x.2 x.1.word l ∧
      ∀ e ∈ l, .ret e.id e.ret ∈ x.2 ∨ ∃ th, x.1.place th = .ended e.id e.op e.ret := by
  have hex : ∃ l, Explained loops w₀ x.1 x.2 l := by
    refine hr.record_invariant (I := fun s h => ∃ l, Explained loops w₀ s h l) ?_ fun s a s' h _ hi _ hs =>
      hi.elim fun l hi => hi.step hsound hs
    rintro s rfl
    exact ⟨[], ⟨rfl, .nil, nofun, nofun, nofun⟩, nofun, nofun, fun _ => trivial, nofun⟩
  obtain ⟨l, hi⟩ := hex
  exact ⟨l, hi.lin, hi.rest⟩

end Many

end Threads

end Gabs.Lib
