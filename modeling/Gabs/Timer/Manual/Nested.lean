import Gabs.Timer.Manual.Sane

/-!
# The manual timer: calls of `gabs_timer_manual_advance` from callbacks

- `Unwrapped`: no sum wraps; nothing else is asked of the client or of the callbacks;
- `Ahead`: no timer is overdue; that is so in every reachable state, whatever calls are nested;
- `pending`: the ends of the calls of `gabs_timer_manual_advance` on the stack, the innermost first;
- `Nesting`: whether a nested call was made that ends after the one around it, and whether the clock has stepped back;
- `Calm`, `Trapped`: before such a call the pending ends are in order; after one the clock will pass the end of a call
  that is still on the stack;
- `clock_kept`: the clock steps back exactly when such a call is made.
-/

namespace Gabs.Timer.Manual

open Gabs.Lib

variable {n : Nat}

/-! ## The stack -/

/-- **No sum wraps.** -/
def Unwrapped (s : Sys n) : Act n → Prop
  | .call op => ∀ x ∈ op.arms s.ctx, s.ctx.nowUs + x.2 < 2 ^ 64
  | .advance us => s.ctx.nowUs + us < 2 ^ 64
  | _ => True

instance (s : Sys n) (a : Act n) : Decidable (Unwrapped s a) :=
  match a with
  | .call _ => inferInstanceAs (Decidable (∀ _ ∈ _, _))
  | .advance _ => inferInstanceAs (Decidable (_ < _))
  | .ret | .loop => instDecidableTrue

/-- The ends of the calls of `gabs_timer_manual_advance` on the stack. -/
def pending : List (Frame n) → List Nat
  | [] => []
  | .callback _ :: fs => pending fs
  | .advance e _ :: fs => e :: pending fs

@[simp] theorem pending_callback {t : Fin n} {fs : List (Frame n)} : pending (.callback t :: fs) = pending fs := rfl

@[simp] theorem pending_advance {e k : Nat} {fs : List (Frame n)} :
    pending (.advance e k :: fs) = e :: pending fs := rfl

/-- A nested call of `gabs_timer_manual_advance` that ends after the innermost call on the stack. -/
def overruns (s : Sys n) : Act n → Bool
  | .advance us => (pending s.frames).head?.any fun e => decide (e < s.ctx.nowUs + us)
  | _ => false

/-- Whether a nested call was made that ends after the one around it, and whether a step has set the clock back. -/
structure Nesting where
  overran : Bool
  back : Bool
  deriving DecidableEq

/-- The history after one more step. -/
def Nesting.record (s : Sys n) (a : Act n) (s' : Sys n) (g : Nesting) : Nesting :=
  ⟨g.overran || overruns s a, g.back || decide (s'.ctx.nowUs < s.ctx.nowUs)⟩

/-- The system with this history. -/
def nestings (n : Nat) : Lts (Sys n × Nesting) (Act n) := (system n).record ⟨false, false⟩ Nesting.record

variable {s s' : Sys n}

/-! ## No timer is overdue -/

/-- No timer is overdue. -/
def Ahead (c : Ctx n) : Prop :=
  ∀ t, (c.timers t).used = true → (c.timers t).active = true → c.nowUs ≤ (c.timers t).expiryUs

/-- What one step may do to a timer, as long as the clock stands. -/
theorem Ahead.keep {c c' : Ctx n} (hi : Ahead c) (hn : c'.nowUs = c.nowUs)
    (ht : ∀ t, (c'.timers t).active = true → c'.timers t = c.timers t ∨ c.nowUs ≤ (c'.timers t).expiryUs) :
    Ahead c' := by
  intro t hu ha
  rw [hn]
  rcases ht t ha with he | hle
  · rw [he]
    exact hi t (he ▸ hu) (he ▸ ha)
  · exact hle

/-- **One step.** The clock may step back, but not past a timer. -/
theorem Ahead.step {a : Act n} (hi : Ahead s.ctx) (hp : Unwrapped s a) (h : Move s a s') : Ahead s'.ctx := by
  cases h with
  | install => exact hi.keep rfl fun t ha => .inl (active_of_put rfl ha)
  | uninstall => exact hi.keep rfl fun t ha => .inl (active_of_put rfl ha)
  | stop => exact hi.keep rfl fun t ha => .inl (active_of_put rfl ha)
  | fire => exact hi.keep rfl fun t ha => .inl (active_of_put rfl ha)
  | quiet => exact hi
  | advance => exact hi
  | retLoop => exact hi
  | retFire => exact hi
  | @arm op t us hc ha =>
    refine hi.keep rfl fun u _ => ?_
    rcases eq_or_ne u t with rfl | hne
    · refine .inr ?_
      rw [arm_timers_self, wrap_of_lt (hp (u, us) ha)]
      exact Nat.le_add_right ..
    · exact .inl (arm_timers_of_ne hne)
  | @alarm t e k fs hf hne =>
    intro u hu ha
    have hold : ((s.ctx.setNow (s.ctx.timers t).expiryUs).disarm t).timers u = s.ctx.timers u := active_of_put rfl ha
    have hfirst := nextExpired_first hne (hold ▸ hu) (hold ▸ ha)
    rw [← hold] at hfirst
    exact hfirst
  | @done e k fs hf hne => exact fun u hu ha => (lt_of_not_due (nextExpired_none hne u) hu ha).le

theorem ahead_of_reach (hr : (system n).Reach Unwrapped s) : Ahead s.ctx := by
  refine hr.invariant (I := fun s => Ahead s.ctx) ?_ fun s a s' _ hi hp h => hi.step hp (step_move h)
  rintro s rfl t hu
  cases hu

/-! ## The invariant -/

/-- The calls on the stack end in the order in which they return, and timers are not overdue. -/
structure Calm (s : Sys n) : Prop where
  sorted : (pending s.frames).Pairwise (· ≤ ·)
  inTime : ∀ e ∈ pending s.frames, s.ctx.nowUs ≤ e
  ahead : ∀ t, (s.ctx.timers t).used = true → (s.ctx.timers t).active = true →
    s.ctx.nowUs ≤ (s.ctx.timers t).expiryUs

/-- A call on the stack ends before the clock, or before a call inside it. -/
def Trapped (s : Sys n) : Prop :=
  ∃ l₁ e l₂, pending s.frames = l₁ ++ e :: l₂ ∧ (e < s.ctx.nowUs ∨ ∃ e' ∈ l₁, e < e')

/-- A step that leaves the clock and the calls on the stack alone. -/
theorem Calm.keep (hi : Calm s) (hn : s'.ctx.nowUs = s.ctx.nowUs) (hf : pending s'.frames = pending s.frames)
    (ha : Ahead s'.ctx) : Calm s' := by
  refine ⟨hf ▸ hi.sorted, ?_, ha⟩
  rw [hf, hn]
  exact hi.inTime

/-- A nested call that ends before the innermost call ends before all of them. -/
theorem Calm.within (hi : Calm s) {us : Nat} (ho : overruns s (.advance us) = false) {e : Nat}
    (he : e ∈ pending s.frames) : s.ctx.nowUs + us ≤ e := by
  have hsorted := hi.sorted
  unfold overruns at ho
  cases hf : pending s.frames with
  | nil =>
    rw [hf] at he
    cases he
  | cons e₀ l =>
    rw [hf] at he hsorted ho
    have hle : s.ctx.nowUs + us ≤ e₀ := by simpa using ho
    rcases List.mem_cons.mp he with rfl | he
    · exact hle
    · exact hle.trans ((List.pairwise_cons.mp hsorted).1 e he)

/-- **One step**, when no nested call ends too late: the clock does not step back. -/
theorem Calm.step {a : Act n} (hi : Calm s) (hp : Unwrapped s a) (ho : overruns s a = false) (h : Move s a s') :
    Calm s' ∧ s.ctx.nowUs ≤ s'.ctx.nowUs := by
  have ha : Ahead s'.ctx := Ahead.step hi.ahead hp h
  cases h with
  | install => exact ⟨hi.keep rfl rfl ha, le_rfl⟩
  | uninstall => exact ⟨hi.keep rfl rfl ha, le_rfl⟩
  | stop => exact ⟨hi.keep rfl rfl ha, le_rfl⟩
  | fire => exact ⟨hi.keep rfl rfl ha, le_rfl⟩
  | quiet => exact ⟨hi.keep rfl rfl ha, le_rfl⟩
  | arm => exact ⟨hi.keep rfl rfl ha, le_rfl⟩
  | retLoop hf => exact ⟨hi.keep rfl (by rw [hf]; rfl) ha, le_rfl⟩
  | retFire hf => exact ⟨hi.keep rfl (by rw [hf]; rfl) ha, le_rfl⟩
  | @advance us hc =>
    have hend : wrap (s.ctx.nowUs + us) = s.ctx.nowUs + us := wrap_of_lt hp
    refine ⟨⟨?_, ?_, ha⟩, le_rfl⟩
    · rw [pending_advance, hend]
      exact List.pairwise_cons.mpr ⟨fun e he => hi.within ho he, hi.sorted⟩
    · intro e he
      rcases List.mem_cons.mp he with rfl | he
      · rw [hend]
        exact Nat.le_add_right ..
      · exact hi.inTime e he
  | @alarm t e k fs hf hne =>
    obtain ⟨hu, hact, hle⟩ := due_iff.mp (nextExpired_some hne).1
    have hsorted := hi.sorted
    rw [hf, pending_advance] at hsorted
    refine ⟨⟨hi.sorted, fun e' he' => ?_, ha⟩, hi.ahead t hu hact⟩
    have hmem : e' ∈ pending s.frames := he'
    rw [hf, pending_advance] at hmem
    rcases List.mem_cons.mp hmem with rfl | hmem
    · exact hle
    · exact hle.trans ((List.pairwise_cons.mp hsorted).1 e' hmem)
  | @done e k fs hf hne =>
    have hsorted := hi.sorted
    rw [hf, pending_advance] at hsorted
    obtain ⟨hfirst, hrest⟩ := List.pairwise_cons.mp hsorted
    exact ⟨⟨hrest, hfirst, ha⟩, hi.inTime e (by rw [hf]; exact List.mem_cons_self)⟩

/-- A step that leaves the calls on the stack alone, and does not set the clock back. -/
theorem Trapped.keep (ht : Trapped s) (hn : s.ctx.nowUs ≤ s'.ctx.nowUs) (hf : pending s'.frames = pending s.frames) :
    Trapped s' := by
  obtain ⟨l₁, e, l₂, hl, hlt⟩ := ht
  exact ⟨l₁, e, l₂, hf.trans hl, hlt.imp (fun h => h.trans_le hn) id⟩

/-- A nested call that ends too late. -/
theorem trapped_of_overruns {us : Nat} (hp : Unwrapped s (.advance us)) (ho : overruns s (.advance us) = true) :
    Trapped { s with frames := .advance (wrap (s.ctx.nowUs + us)) 0 :: s.frames } := by
  unfold overruns at ho
  cases hf : pending s.frames with
  | nil =>
    rw [hf] at ho
    cases ho
  | cons e l =>
    rw [hf] at ho
    have hlt : e < s.ctx.nowUs + us := by simpa using ho
    refine ⟨[wrap (s.ctx.nowUs + us)], e, l, ?_, .inr ⟨_, List.mem_singleton.mpr rfl, ?_⟩⟩
    · rw [pending_advance, hf]
      rfl
    · rwa [wrap_of_lt hp]

/-- **One step** that does not set the clock back does not help. -/
theorem Trapped.step {a : Act n} (ht : Trapped s) (h : Move s a s') (hle : s.ctx.nowUs ≤ s'.ctx.nowUs) :
    Trapped s' := by
  cases h with
  | install => exact ht.keep hle rfl
  | uninstall => exact ht.keep hle rfl
  | stop => exact ht.keep hle rfl
  | fire => exact ht.keep hle rfl
  | quiet => exact ht.keep hle rfl
  | arm => exact ht.keep hle rfl
  | alarm => exact ht.keep hle rfl
  | retLoop hf => exact ht.keep hle (by rw [hf]; rfl)
  | retFire hf => exact ht.keep hle (by rw [hf]; rfl)
  | advance =>
    obtain ⟨l₁, e, l₂, hl, hlt⟩ := ht
    refine ⟨_ :: l₁, e, l₂, by rw [pending_advance, hl]; rfl, hlt.imp id ?_⟩
    rintro ⟨e', he', hlt⟩
    exact ⟨e', List.mem_cons_of_mem _ he', hlt⟩
  | @done e₀ k fs hf hne =>
    have hle : s.ctx.nowUs ≤ e₀ := hle
    obtain ⟨l₁, e, l₂, hl, hlt⟩ := ht
    rw [hf, pending_advance] at hl
    cases l₁ with
    | nil =>
      -- The call that returns is the one whose end has been passed.
      obtain rfl : e₀ = e := (List.cons.inj hl).1
      rcases hlt with hlt | ⟨e', he', -⟩
      · exact absurd hle (not_le.mpr hlt)
      · cases he'
    | cons e₁ l₁ =>
      obtain ⟨he₁, hrest⟩ := List.cons.inj hl
      refine ⟨l₁, e, l₂, hrest, ?_⟩
      rcases hlt with hlt | ⟨e', he', hlt⟩
      · exact .inl (hlt.trans_le hle)
      · rcases List.mem_cons.mp he' with rfl | he'
        · exact .inl (he₁ ▸ hlt)
        · exact .inr ⟨e', he', hlt⟩

/-- **The invariant.** -/
structure Nested (s : Sys n) (g : Nesting) : Prop where
  calm : g.overran = false → Calm s ∧ g.back = false
  trapped : g.overran = true → g.back = true ∨ Trapped s

variable {g : Nesting}

theorem Nested.init : Nested (boot n) ⟨false, false⟩ := by
  refine ⟨fun _ => ⟨⟨.nil, nofun, ?_⟩, rfl⟩, nofun⟩
  intro t hu
  cases hu

theorem Nested.step {a : Act n} (hi : Nested s g) (hp : Unwrapped s a) (h : Move s a s') :
    Nested s' (g.record s a s') := by
  constructor
  · intro ho
    obtain ⟨hwas, hnow⟩ : g.overran = false ∧ overruns s a = false := by simpa [Nesting.record] using ho
    obtain ⟨hcalm, hback⟩ := hi.calm hwas
    obtain ⟨hcalm', hle⟩ := hcalm.step hp hnow h
    exact ⟨hcalm', by simpa [Nesting.record, hback] using hle⟩
  · intro ho
    by_cases hback : (g.record s a s').back = true
    · exact .inl hback
    · obtain ⟨hb, hle⟩ : g.back = false ∧ s.ctx.nowUs ≤ s'.ctx.nowUs := by simpa [Nesting.record] using hback
      cases hwas : g.overran with
      | true =>
        have ht : Trapped s := (hi.trapped hwas).resolve_left (by rw [hb]; nofun)
        exact .inr (ht.step h hle)
      | false =>
        have hnow : overruns s a = true := by simpa [Nesting.record, hwas] using ho
        cases h with
        | advance => exact .inr (trapped_of_overruns hp hnow)
        | _ => cases hnow

theorem nested_of_reach {x : Sys n × Nesting} (hr : (nestings n).Reach (fun x a => Unwrapped x.1 a) x) :
    Nested x.1 x.2 := by
  refine hr.record_invariant (I := fun s g => Nested s g) ?_ fun s a s' g _ hi hp h => hi.step hp (step_move h)
  rintro s rfl
  exact .init

/-! ## The clock -/

/-- **The clock never steps back, exactly when no nested call ends after the one around it.** As long as no such call
has been made, no step has set the clock back; and when all calls have returned, the converse holds too. -/
theorem clock_kept {x : Sys n × Nesting} (hr : (nestings n).Reach (fun x a => Unwrapped x.1 a) x) :
    (x.2.overran = false → x.2.back = false) ∧ (x.1.frames = [] → (x.2.back = false ↔ x.2.overran = false)) := by
  have hi := nested_of_reach hr
  have hkept : x.2.overran = false → x.2.back = false := fun ho => (hi.calm ho).2
  refine ⟨hkept, fun hf => ⟨fun hb => ?_, hkept⟩⟩
  by_contra ho
  rcases hi.trapped (Bool.not_eq_false _ ▸ ho) with hback | ⟨l₁, e, l₂, hl, -⟩
  · rw [hb] at hback
    cases hback
  · rw [hf] at hl
    cases l₁ <;> cases hl

/-- A callback advances to the end of the call that runs it, and no further. -/
def withinOuter : List (Act 1) :=
  [.call (.install (some 1) 0), .call (.start 0 5), .advance 20, .loop, .advance 15, .loop, .ret, .loop]

theorem clock_kept_run : ∃ x : Sys 1 × Nesting, (nestings 1).Reach (fun x a => Unwrapped x.1 a) x ∧
    x.1.ctx.nowUs = 20 ∧ x.2.back = false := by
  obtain ⟨x, hr, hnow, hf, ho⟩ := Lts.Reach.run (M := nestings 1) (P := fun x a => Unwrapped x.1 a)
    (s := (boot 1, ⟨false, false⟩)) (Q := fun x => x.1.ctx.nowUs = 20 ∧ x.1.frames = [] ∧ x.2.overran = false)
    ⟨rfl, rfl⟩ withinOuter (by decide)
  exact ⟨x, hr, hnow, ((clock_kept hr).2 hf).mpr ho⟩

/-- A callback that advances past the end of the call that runs it. -/
def pastOuter : List (Act 1) :=
  [.call (.install (some 1) 0), .call (.start 0 5), .advance 5, .loop, .advance 10, .loop, .ret]

/-- **The clock steps back** from 15 to 5 when the outer call returns. -/
theorem outer_steps_back : ∃ (x : Sys 1 × Nesting) (s' : Sys 1),
    (nestings 1).Reach (fun x a => Unwrapped x.1 a) x ∧ Unwrapped x.1 .loop ∧ step x.1 .loop = some s' ∧
    x.1.ctx.nowUs = 15 ∧ s'.ctx.nowUs = 5 := by
  obtain ⟨x, hr, hnow, hs⟩ := Lts.Reach.run (M := nestings 1) (P := fun x a => Unwrapped x.1 a)
    (s := (boot 1, ⟨false, false⟩)) (Q := fun x => x.1.ctx.nowUs = 15 ∧
      (step x.1 .loop).any (fun s' => decide (s'.ctx.nowUs = 5)) = true) ⟨rfl, rfl⟩ pastOuter (by decide)
  obtain ⟨s', hs', hback⟩ := (Option.any_eq_true _ _).mp hs
  exact ⟨x, s', hr, trivial, hs', hnow, of_decide_eq_true hback⟩

end Gabs.Timer.Manual
