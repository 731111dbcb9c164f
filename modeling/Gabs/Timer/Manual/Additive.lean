import Gabs.Timer.Manual.Client

/-!
# The manual timer: advancing is additive

- `Client.runs_retarget_iff`: a call with some callbacks already counted;
- `Client.runs_split_iff`: a call with a later end is the call, and then a call from where it has ended;
- `advance_add`: `gabs_timer_manual_advance(a + b)` is `gabs_timer_manual_advance(a)` and then
  `gabs_timer_manual_advance(b)`; what they return adds up as long as it is an `int`;
- `advance_add_overflows`: two calls whose sum is none.
-/

namespace Gabs.Timer.Manual

open Gabs.Lib

variable {n : Nat} {κ : Type*}

namespace Client

variable {C : Client n κ} {x y : Run n κ} {o : Outcome n κ} {e e₁ d k : Nat} {tr : List (Fin n × Nat)}

/-- The loop finds the same timer for the same end. -/
theorem loop_same (x : Run n κ) (e k : Nat) : x.frames = [.advance e k] → nextExpired x.ctx e = nextExpired x.ctx e ∧
    (nextExpired x.ctx e = none → e = e) :=
  fun _ => ⟨rfl, fun _ => rfl⟩

/-- A call returns in the same way when callbacks were counted before. -/
theorem Runs.retarget (h : C.Runs x o) : ∀ {k}, Above e x.frames k → C.Runs (x.retarget e d tr) (o.add d tr) := by
  induction h with
  | @stop x o h =>
    intro k hx
    refine .stop ?_
    rw [step_retarget hx (loop_same x e k), h]
    rfl
  | @next x y o h hr ih =>
    intro k hx
    obtain ⟨k', hy⟩ := above_of_step hx h
    refine .next ?_ (ih hy)
    rw [step_retarget hx (loop_same x e k), h]
    rfl

/-- A call with callbacks counted before returns as it does without them. -/
theorem Runs.of_retarget (h : C.Runs y o) : ∀ {x k}, Above e x.frames k → y = x.retarget e d tr →
    ∃ o', C.Runs x o' ∧ o = o'.add d tr := by
  induction h with
  | @stop y o h =>
    rintro x k hx rfl
    rw [step_retarget hx (loop_same x e k)] at h
    obtain ⟨z, hz, hzo⟩ := Option.map_eq_some_iff.mp h
    cases z with
    | inl z => cases hzo
    | inr o' => exact ⟨o', .stop hz, (Sum.inr.inj hzo).symm⟩
  | @next y z o h hr ih =>
    rintro x k hx rfl
    rw [step_retarget hx (loop_same x e k)] at h
    obtain ⟨z', hz, hzo⟩ := Option.map_eq_some_iff.mp h
    cases z' with
    | inr o' => cases hzo
    | inl z' =>
      obtain ⟨k', hy⟩ := above_of_step hx hz
      obtain ⟨o', hr', ho⟩ := ih hy (Sum.inl.inj hzo).symm
      exact ⟨o', .next hz hr', ho⟩

/-! ## The split -/

/-- Where the loop has found no timer for the earlier end, the call goes on as one that begins there. -/
theorem step_split (hf : x.frames = [.advance e₁ k]) {b : Nat} :
    C.step (x.retarget e 0 []) = C.step ((begin (x.ctx.setNow e₁) x.client b).retarget e k x.trace) := by
  obtain ⟨c, fs, cl, l⟩ := x
  cases hf
  have hnext : nextExpired (c.setNow e₁) e = nextExpired c e := rfl
  simp only [step, act, Run.retarget, begin, Run.sys, List.map_cons, List.map_nil, Frame.retarget, Manual.step,
    advanceLoop, hnext, Nat.zero_add, Nat.add_zero, List.nil_append, List.append_nil]
  cases nextExpired c e <;> rfl

/-- Runs with the same first step have the same outcomes. -/
theorem Runs.congr (h : C.step x = C.step y) : C.Runs x o ↔ C.Runs y o := by
  constructor
  · intro hr
    cases hr with
    | stop h' => exact .stop (h ▸ h')
    | next h' hr => exact .next (h ▸ h') hr
  · intro hr
    cases hr with
    | stop h' => exact .stop (h ▸ h')
    | next h' hr => exact .next (h ▸ h') hr

/-- The loop finds the same timer for a later end, if it finds one. -/
theorem loop_later (he : e₁ ≤ e) (hns : ¬(x.frames = [.advance e₁ k] ∧ nextExpired x.ctx e₁ = none)) :
    x.frames = [.advance e₁ k] → nextExpired x.ctx e = nextExpired x.ctx e₁ ∧
      (nextExpired x.ctx e₁ = none → e = e₁) := by
  intro hf
  cases hne : nextExpired x.ctx e₁ with
  | none => exact absurd ⟨hf, hne⟩ hns
  | some t => exact ⟨nextExpired_mono he hne, nofun⟩

/-- The call returns where the loop finds no timer. -/
theorem step_stop (hf : x.frames = [.advance e₁ k]) (hne : nextExpired x.ctx e₁ = none) :
    C.step x = some (.inr ⟨x.ctx.setNow e₁, x.client, k, x.trace⟩) := by
  obtain ⟨c, fs, cl, l⟩ := x
  cases hf
  simp only at hne
  simp only [step, act, Run.sys, Manual.step, advanceLoop, hne]
  rfl

/-- Where the loop finds no timer for the earlier end: the call has returned, and another one begins. -/
theorem Runs.split_here {b : Nat} (hb : wrap (e₁ + b) = e) (hf : x.frames = [.advance e₁ k])
    (hne : nextExpired x.ctx e₁ = none) (h : C.Runs (x.retarget e 0 []) o) :
    ∃ o₁ o₂, C.Runs x o₁ ∧ C.Runs (begin o₁.ctx o₁.client b) o₂ ∧ o = o₂.add o₁.count o₁.trace := by
  have habove : Above e (begin (x.ctx.setNow e₁) x.client b).frames 0 := hb ▸ .loop 0
  obtain ⟨o₂, h1, h2⟩ := ((Runs.congr (step_split hf)).mp h).of_retarget habove rfl
  exact ⟨_, o₂, .stop (step_stop hf hne), h1, h2⟩

/-- A call with a later end: the call, and then one that begins where it has ended. -/
theorem Runs.split {b : Nat} (he : e₁ ≤ e) (hb : wrap (e₁ + b) = e) (h : C.Runs y o) :
    ∀ {x k}, Above e₁ x.frames k → y = x.retarget e 0 [] →
      ∃ o₁ o₂, C.Runs x o₁ ∧ C.Runs (begin o₁.ctx o₁.client b) o₂ ∧ o = o₂.add o₁.count o₁.trace := by
  induction h with
  | @stop y o h =>
    rintro x k hx rfl
    by_cases hs : x.frames = [.advance e₁ k] ∧ nextExpired x.ctx e₁ = none
    · exact Runs.split_here hb hs.1 hs.2 (.stop h)
    · rw [step_retarget hx (loop_later he hs)] at h
      obtain ⟨z, hz, hzo⟩ := Option.map_eq_some_iff.mp h
      cases z with
      | inl z => cases hzo
      | inr o' => exact absurd ⟨(stop_of_step hx hz).1, (stop_of_step hx hz).2.1⟩ hs
  | @next y z o h hr ih =>
    rintro x k hx rfl
    by_cases hs : x.frames = [.advance e₁ k] ∧ nextExpired x.ctx e₁ = none
    · exact Runs.split_here hb hs.1 hs.2 (.next h hr)
    · rw [step_retarget hx (loop_later he hs)] at h
      obtain ⟨z', hz, hzo⟩ := Option.map_eq_some_iff.mp h
      cases z' with
      | inr o' => cases hzo
      | inl z' =>
        obtain ⟨k', hy⟩ := above_of_step hx hz
        obtain ⟨o₁, o₂, h₁, h₂⟩ := ih hy (Sum.inl.inj hzo).symm
        exact ⟨o₁, o₂, .next hz h₁, h₂⟩

/-- A call, and then one that begins where it has ended: a call with the later end. -/
theorem Runs.join {b : Nat} {o₁ o₂ : Outcome n κ} (he : e₁ ≤ e) (hb : wrap (e₁ + b) = e) (h : C.Runs x o₁)
    (h₂ : C.Runs (begin o₁.ctx o₁.client b) o₂) :
    ∀ {k}, Above e₁ x.frames k → C.Runs (x.retarget e 0 []) (o₂.add o₁.count o₁.trace) := by
  induction h with
  | @stop x o₁ h =>
    intro k hx
    obtain ⟨hf, hne, rfl⟩ := stop_of_step hx h
    have habove : Above e (begin (x.ctx.setNow e₁) x.client b).frames 0 := hb ▸ .loop 0
    exact (Runs.congr (step_split hf)).mpr (h₂.retarget habove)
  | @next x z o₁ h hr ih =>
    intro k hx
    have hs : ¬(x.frames = [.advance e₁ k] ∧ nextExpired x.ctx e₁ = none) := by
      rintro ⟨hf, hne⟩
      rw [step_stop hf hne] at h
      cases h
    obtain ⟨k', hy⟩ := above_of_step hx h
    refine .next ?_ (ih h₂ hy)
    rw [step_retarget hx (loop_later he hs), h]
    rfl

end Client

/-! ## Two calls and one -/

/-- The call returns exactly if the two calls do, one after the other, with the callbacks of both. -/
theorem advances_add_iff (C : Client n κ) {c : Ctx n} {k : κ} {a b : Nat} (h : c.nowUs + (a + b) < 2 ^ 64)
    (o : Outcome n κ) : C.Advances c k (a + b) o ↔ ∃ o₁ o₂, C.Advances c k a o₁ ∧ C.Advances o₁.ctx o₁.client b o₂ ∧
      o = ⟨o₂.ctx, o₂.client, o₁.count + o₂.count, o₁.trace ++ o₂.trace⟩ := by
  have ha : wrap (c.nowUs + a) = c.nowUs + a := wrap_of_lt (by omega)
  have hab : wrap (c.nowUs + (a + b)) = c.nowUs + a + b := by rw [wrap_of_lt h, Nat.add_assoc]
  have hx : Client.Above (c.nowUs + a) (begin c k a).frames 0 := ha ▸ .loop 0
  have hbegin : begin c k (a + b) = (begin c k a).retarget (c.nowUs + a + b) 0 [] := by
    rw [begin, hab]; rfl
  have hb : wrap (c.nowUs + a + b) = c.nowUs + a + b := wrap_of_lt (by omega)
  have hadd : ∀ o₁ o₂ : Outcome n κ, o₂.add o₁.count o₁.trace =
      ⟨o₂.ctx, o₂.client, o₁.count + o₂.count, o₁.trace ++ o₂.trace⟩ := fun o₁ o₂ => by
    rw [Outcome.add, Nat.add_comm]
  constructor
  · intro hr
    obtain ⟨o₁, o₂, h1, h2, rfl⟩ := Client.Runs.split (Nat.le_add_right ..) hb hr hx hbegin
    rw [hadd]
    exact ⟨o₁, o₂, h1, h2, rfl⟩
  · rintro ⟨o₁, o₂, h1, h2, rfl⟩
    rw [← hadd, Client.Advances, hbegin]
    exact h1.join (Nat.le_add_right ..) hb h2 hx

/-- What `gabs_timer_manual_advance` returns. -/
def Outcome.int (o : Outcome n κ) : Option Int := intOf o.count

/-- **One call does what two do**: the same callbacks in the same order with the same clocks, the same context and
client, and the sum of what they return. -/
structure Outcome.Joins (o₁ o₂ o : Outcome n κ) : Prop where
  trace : o.trace = o₁.trace ++ o₂.trace
  ctx : o.ctx = o₂.ctx
  client : o.client = o₂.client
  int : ∃ v₁ v₂, o₁.int = some v₁ ∧ o₂.int = some v₂ ∧ o.int = some (v₁ + v₂)

theorem joins_iff {o₁ o₂ : Outcome n κ} :
    o₁.Joins o₂ ⟨o₂.ctx, o₂.client, o₁.count + o₂.count, o₁.trace ++ o₂.trace⟩ ↔ o₁.count + o₂.count ≤ intMax := by
  constructor
  · intro h
    obtain ⟨v₁, v₂, -, -, hsum⟩ := h.int
    by_contra hgt
    rw [Outcome.int, intOf, if_neg hgt] at hsum
    cases hsum
  · intro hle
    have h₁ : o₁.int = some (o₁.count : Int) := intOf_eq_some_iff.mpr ((Nat.le_add_right ..).trans hle)
    have h₂ : o₂.int = some (o₂.count : Int) := intOf_eq_some_iff.mpr ((Nat.le_add_left ..).trans hle)
    exact ⟨rfl, rfl, rfl, _, _, h₁, h₂, intOf_eq_some_iff.mpr hle⟩

/-- A callback that restarts its timer. -/
def ticker (us : Nat) : Client 1 Bool where
  enter _ _ _ := true
  next k _ := if k then some (.restart 0 us) else none
  resume _ _ _ := false

/-- With a delay of one microsecond it runs once in each. -/
theorem ticker_runs {e : Nat} (he : e + 1 < 2 ^ 64) (d : Nat) : ∀ us k (tr : List (Fin 1 × Nat)), us + d = e →
    ∃ tr', (ticker 1).Runs ⟨beatCtx us, [.advance e k], false, tr⟩ ⟨beatCtx e, false, k + d, tr'⟩ := by
  induction d with
  | zero =>
    intro us k tr hd
    obtain rfl : us = e := hd
    refine ⟨tr, .stop ?_⟩
    rw [Client.step, Run.sys, show (ticker 1).act _ = .loop from rfl, beat_done]
    rfl
  | succ d ih =>
    intro us k tr hd
    obtain ⟨tr', hr⟩ := ih (us + 1) (k + 1) (tr ++ [(0, us + 1)]) (by omega)
    refine ⟨tr', .next (y := ⟨firedCtx us, [.callback 0, .advance e k], true, tr ++ [(0, us + 1)]⟩) ?_ ?_⟩
    · rw [Client.step, Run.sys, show (ticker 1).act _ = .loop from rfl, beat_alarm (by omega)]
      rfl
    refine .next (y := ⟨beatCtx (us + 1), [.callback 0, .advance e k], false, tr ++ [(0, us + 1)]⟩) ?_ ?_
    · rw [Client.step, Run.sys, show (ticker 1).act _ = .call (.restart 0 1) from rfl, fired_restart (by omega)]
      rfl
    refine .next (y := ⟨beatCtx (us + 1), [.advance e (k + 1)], false, tr ++ [(0, us + 1)]⟩) rfl ?_
    rw [show k + (d + 1) = k + 1 + d by omega]
    exact hr

theorem ticker_advances (us d : Nat) (h : us + d + 1 < 2 ^ 64) :
    ∃ tr, (ticker 1).Advances (beatCtx us) false d ⟨beatCtx (us + d), false, d, tr⟩ := by
  have hend : wrap ((beatCtx us).nowUs + d) = us + d := wrap_of_lt (by simp only [beatCtx]; omega)
  obtain ⟨tr, hr⟩ := ticker_runs h d us 0 [] rfl
  rw [Nat.zero_add] at hr
  refine ⟨tr, ?_⟩
  rw [Client.Advances, begin, hend]
  exact hr

/-- **Advancing is additive** up to `INT_MAX`. `gabs_timer_manual_advance(a + b)` returns exactly if
`gabs_timer_manual_advance(a)` and then `gabs_timer_manual_advance(b)` do. It runs the callbacks of the two calls, one
after the other and with the same clocks, and leaves the same context and the same client; it returns the sum of their
counts exactly if they count at most `INT_MAX` callbacks. -/
theorem advance_add (C : Client n κ) {c : Ctx n} {k : κ} {a b : Nat} (h : c.nowUs + (a + b) < 2 ^ 64) :
    (∀ o, C.Advances c k (a + b) o ↔ ∃ o₁ o₂, C.Advances c k a o₁ ∧ C.Advances o₁.ctx o₁.client b o₂ ∧
      o = ⟨o₂.ctx, o₂.client, o₁.count + o₂.count, o₁.trace ++ o₂.trace⟩) ∧
    ∀ o₁ o₂, C.Advances c k a o₁ → C.Advances o₁.ctx o₁.client b o₂ →
      ((∃ o, C.Advances c k (a + b) o ∧ o₁.Joins o₂ o) ↔ o₁.count + o₂.count ≤ intMax) := by
  refine ⟨advances_add_iff C h, fun o₁ o₂ h₁ h₂ => ?_⟩
  have hboth := (advances_add_iff C h _).mpr ⟨o₁, o₂, h₁, h₂, rfl⟩
  constructor
  · rintro ⟨o, ho, hjoins⟩
    cases ho.unique C hboth
    exact joins_iff.mp hjoins
  · exact fun hle => ⟨_, hboth, joins_iff.mpr hle⟩

/-- Two calls that run 2^30 callbacks each, and return so; the single call does not return their sum. -/
theorem advance_add_overflows : (system 1).Reach Usable ⟨beatCtx 0, [], .status 0⟩ ∧
    ∃ o₁ o₂ o, (ticker 1).Advances (beatCtx 0) false (2 ^ 30) o₁ ∧
      (ticker 1).Advances o₁.ctx o₁.client (2 ^ 30) o₂ ∧ (ticker 1).Advances (beatCtx 0) false (2 ^ 30 + 2 ^ 30) o ∧
      o₁.int = some (2 ^ 30 : Nat) ∧ o₂.int = some (2 ^ 30 : Nat) ∧ ¬o₁.Joins o₂ o := by
  obtain ⟨tr₁, h₁⟩ := ticker_advances 0 (2 ^ 30) (by decide)
  obtain ⟨tr₂, h₂⟩ := ticker_advances (0 + 2 ^ 30) (2 ^ 30) (by decide)
  have hboth := (advances_add_iff (ticker 1) (by decide) _).mpr ⟨_, _, h₁, h₂, rfl⟩
  have hint : intOf (2 ^ 30) = some (2 ^ 30 : Nat) := by decide
  have hsum : ¬2 ^ 30 + 2 ^ 30 ≤ intMax := by decide
  exact ⟨reach_start_beat.fst, _, _, _, h₁, h₂, hboth, hint, hint, fun hjoins => hsum (joins_iff.mp hjoins)⟩

/-- The timer of a ticker, started. -/
def tickerCtx : Ctx 1 := (restart (install (ctxInit 1) (some 0) 0).1 0 2).1

theorem advance_add_run : ∃ o₁ o₂, (ticker 2).Advances tickerCtx false 3 o₁ ∧
    (ticker 2).Advances o₁.ctx o₁.client 2 o₂ ∧ o₁.count + o₂.count = 2 ∧ o₁.trace ++ o₂.trace = [(0, 2), (0, 4)] ∧
    ∃ o, (ticker 2).Advances tickerCtx false (3 + 2) o ∧ o₁.Joins o₂ o := by
  obtain ⟨o, he, hc, ht⟩ : ∃ o, (ticker 2).exec 8 (begin tickerCtx false (3 + 2)) = some o ∧ o.count = 2 ∧
      o.trace = [(0, 2), (0, 4)] := ⟨_, rfl, by decide, by decide⟩
  have hadd := advance_add (ticker 2) (c := tickerCtx) (k := false) (a := 3) (b := 2) (by decide)
  obtain ⟨o₁, o₂, h₁, h₂, rfl⟩ := (hadd.1 o).mp ((ticker 2).runs_of_exec he)
  exact ⟨o₁, o₂, h₁, h₂, hc, ht, (hadd.2 o₁ o₂ h₁ h₂).mpr (hc.trans_le (by decide))⟩

end Gabs.Timer.Manual
