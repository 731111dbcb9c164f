import Gabs.Lib.Upto

/-!
# Fallible computations that keep a log

- `Logged`: the result of a computation, or its failure, and what it has noted until then;
- `Logged.result_bind`, `Logged.result_lift`, `Logged.result_note`: without the log it is the computation itself;
- `Logged.Upto`: partial correctness, for everything that is noted also where the computation fails.
-/

namespace Gabs.Lib

universe u v

/-- **A computation that keeps a log**, and what it comes to. -/
structure Logged (β : Type u) (ε α : Type u) where
  log : List β
  result : Except ε α

namespace Logged

variable {β ε α γ : Type u}

/-- The log of a failure ends there. -/
instance : Monad (Logged β ε) where
  pure a := ⟨[], .ok a⟩
  bind x k := match x.result with
    | .ok a => ⟨x.log ++ (k a).log, (k a).result⟩
    | .error e => ⟨x.log, .error e⟩

/-- A computation that notes nothing. -/
instance : MonadLift (Except ε) (Logged β ε) := ⟨fun e => ⟨[], e⟩⟩

/-- `b` is noted. -/
def note (b : β) : Logged β ε PUnit := ⟨[b], .ok ⟨⟩⟩

@[simp] theorem result_pure {a : α} : (pure a : Logged β ε α).result = .ok a := rfl

@[simp] theorem result_lift {e : Except ε α} : (liftM e : Logged β ε α).result = e := rfl

@[simp] theorem result_note {b : β} : (note b : Logged β ε PUnit).result = .ok ⟨⟩ := rfl

@[simp] theorem result_bind {x : Logged β ε α} {k : α → Logged β ε γ} :
    (x >>= k).result = x.result >>= fun a => (k a).result := by
  obtain ⟨l, e | a⟩ := x <;> rfl

/-- **Partial correctness**: what is noted satisfies `P`, a result satisfies `Q`, and a failure is tolerated. -/
def Upto (ok : ε → Prop) (P : β → Prop) (x : Logged β ε α) (Q : α → Prop) : Prop :=
  (∀ b ∈ x.log, P b) ∧ Lib.Upto ok x.result Q

variable {ok : ε → Prop} {P : β → Prop} {Q : α → Prop} {x : Logged β ε α}

theorem upto_pure {a : α} (h : Q a) : Upto ok P (pure a : Logged β ε α) Q := ⟨by simp [pure], h⟩

theorem upto_lift {e : Except ε α} (h : Lib.Upto ok e Q) : Upto ok P (liftM e : Logged β ε α) Q :=
  ⟨fun _ hb => absurd hb List.not_mem_nil, h⟩

theorem lift_ok_bind {a : α} {k : α → Logged β ε γ} : (liftM (.ok a : Except ε α) : Logged β ε α) >>= k = k a := rfl

theorem lift_error_bind {e : ε} {k : α → Logged β ε γ} :
    (liftM (.error e : Except ε α) : Logged β ε α) >>= k = ⟨[], .error e⟩ := rfl

theorem upto_note {b : β} (h : P b) : Upto ok P (note b : Logged β ε PUnit) fun _ => True :=
  ⟨fun _ hb => List.mem_singleton.mp hb ▸ h, trivial⟩

/-- The rule of consequence. -/
theorem Upto.mono {R : α → Prop} (hx : Upto ok P x Q) (hQ : ∀ a, Q a → R a) : Upto ok P x R := ⟨hx.1, hx.2.mono hQ⟩

/-- A branch. -/
theorem upto_ite {c : Prop} [Decidable c] {x' : Logged β ε α} (h : c → Upto ok P x Q) (h' : ¬c → Upto ok P x' Q) :
    Upto ok P (if c then x else x') Q := by
  split
  · exact h ‹_›
  · exact h' ‹_›

/-- **The rule of sequencing.** -/
theorem Upto.bind {k : α → Logged β ε γ} {S : γ → Prop} (hx : Upto ok P x Q) (hk : ∀ a, Q a → Upto ok P (k a) S) :
    Upto ok P (x >>= k) S := by
  obtain ⟨l, e | a⟩ := x
  · exact hx
  · obtain ⟨hl, ha⟩ := hx
    obtain ⟨hl', ha'⟩ := hk a ha
    refine ⟨fun b hb => ?_, ha'⟩
    rcases List.mem_append.mp hb with hb | hb
    · exact hl b hb
    · exact hl' b hb

end Logged

end Gabs.Lib
