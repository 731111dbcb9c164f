import Gabs.Timer.Manual.Order

/-!
# The manual timer: deterministic clients

- `Client`: callbacks that are functions of the context and of a state of their own;
- `Run`, `Client.step`: a call of `gabs_timer_manual_advance` with such callbacks, step by step;
- `Client.Runs`: the call returns, with the `Outcome`;
- `Run.retarget`: the call with another end, and some callbacks already counted; the steps are the same
  (`Client.step_retarget`).
-/

namespace Gabs.Timer.Manual

open Gabs.Lib

variable {n : Nat} {κ : Type*}

/-! ## Runs -/

/-- Callbacks that are functions of the context and of the client's own state: what the state is when a callback begins,
the next call of the callback that runs (none if it returns), and the state when a call has returned. -/
structure Client (n : Nat) (κ : Type*) where
  enter : κ → Ctx n → Fin n → κ
  next : κ → Ctx n → Option (Op n)
  resume : κ → Ctx n → Ret n → κ

/-- A call of `gabs_timer_manual_advance` in progress: the context, the stack, the state of the client, and the
callbacks run so far, with their clocks. -/
structure Run (n : Nat) (κ : Type*) where
  ctx : Ctx n
  frames : List (Frame n)
  client : κ
  trace : List (Fin n × Nat)

/-- What a call of `gabs_timer_manual_advance` leaves: the context, the state of the client, the count returned, and the
callbacks run. -/
@[ext] structure Outcome (n : Nat) (κ : Type*) where
  ctx : Ctx n
  client : κ
  count : Nat
  trace : List (Fin n × Nat)

/-- The system in a run; what earlier calls returned does not matter. -/
def Run.sys (x : Run n κ) : Sys n := ⟨x.ctx, x.frames, .status 0⟩

/-- The call `gabs_timer_manual_advance(us)` has been entered. -/
def begin (c : Ctx n) (k : κ) (us : Nat) : Run n κ := ⟨c, [.advance (wrap (c.nowUs + us)) 0], k, []⟩

namespace Client

variable (C : Client n κ)

/-- What is done next. -/
def act (x : Run n κ) : Act n :=
  match x.frames with
  | .advance _ _ :: _ => .loop
  | _ => match C.next x.client x.ctx with
    | some op => .call op
    | none => .ret

/-- The client takes note of a step: a callback has begun, or a call of the callback on top has returned. -/
def observe (x : Run n κ) (s' : Sys n) : Run n κ :=
  match s'.frames with
  | .callback t :: _ =>
    if x.frames.length < s'.frames.length then
      ⟨s'.ctx, s'.frames, C.enter x.client s'.ctx t, x.trace ++ [(t, s'.ctx.nowUs)]⟩
    else ⟨s'.ctx, s'.frames, C.resume x.client s'.ctx s'.ret, x.trace⟩
  | _ => ⟨s'.ctx, s'.frames, x.client, x.trace⟩

/-- The step after which the system is `s'`: the run goes on, or the call returns. -/
def after (x : Run n κ) (s' : Sys n) : Run n κ ⊕ Outcome n κ :=
  match s'.ret, s'.frames with
  | .count k, [] => .inr ⟨s'.ctx, x.client, k, x.trace⟩
  | _, _ => .inl (C.observe x s')

/-- One step of a run. -/
def step (x : Run n κ) : Option (Run n κ ⊕ Outcome n κ) := (Manual.step x.sys (C.act x)).map (C.after x)

/-- **The call returns**: from `x` the run comes to the outcome. -/
inductive Runs : Run n κ → Outcome n κ → Prop
  | stop {x : Run n κ} {o : Outcome n κ} : C.step x = some (.inr o) → Runs x o
  | next {x y : Run n κ} {o : Outcome n κ} : C.step x = some (.inl y) → Runs y o → Runs x o

/-- A call returns in one way. -/
theorem Runs.unique {x : Run n κ} {o o' : Outcome n κ} (h : C.Runs x o) (h' : C.Runs x o') : o = o' := by
  induction h with
  | stop h =>
    cases h' with
    | stop h' => exact Sum.inr.inj (Option.some.inj (h.symm.trans h'))
    | next h' => cases h.symm.trans h'
  | next h _ ih =>
    cases h' with
    | stop h' => cases h.symm.trans h'
    | next h' hr => cases h.symm.trans h'; exact ih hr

/-- At most `fuel` steps of a run. -/
def exec : Nat → Run n κ → Option (Outcome n κ)
  | 0, _ => none
  | fuel + 1, x => match C.step x with
    | some (.inl y) => exec fuel y
    | some (.inr o) => some o
    | none => none

theorem runs_of_exec {o : Outcome n κ} : ∀ {fuel : Nat} {x : Run n κ}, C.exec fuel x = some o → C.Runs x o := by
  intro fuel
  induction fuel with
  | zero => intro x h; cases h
  | succ fuel ih =>
    intro x h
    rw [exec] at h
    split at h
    · exact .next ‹_› (ih h)
    · cases h; exact .stop ‹_›
    · cases h

/-- `gabs_timer_manual_advance(us)` returns with the outcome. -/
def Advances (c : Ctx n) (k : κ) (us : Nat) (o : Outcome n κ) : Prop := C.Runs (begin c k us) o

end Client

/-! ## Another end -/

/-- The frame with another end, and `d` callbacks already counted. -/
def Frame.retarget (e d : Nat) : Frame n → Frame n
  | .advance _ k => .advance e (k + d)
  | .callback t => .callback t

def Ret.add (d : Nat) : Ret n → Ret n
  | .count k => .count (k + d)
  | v => v

def Sys.retarget (e d : Nat) (s : Sys n) : Sys n := ⟨s.ctx, s.frames.map (.retarget e d), s.ret.add d⟩

/-- The run with another end, and the callbacks of `tr` already run and counted. -/
def Run.retarget (e d : Nat) (tr : List (Fin n × Nat)) (x : Run n κ) : Run n κ :=
  ⟨x.ctx, x.frames.map (.retarget e d), x.client, tr ++ x.trace⟩

def Outcome.add (d : Nat) (tr : List (Fin n × Nat)) (o : Outcome n κ) : Outcome n κ :=
  ⟨o.ctx, o.client, o.count + d, tr ++ o.trace⟩

section Retarget

variable {s : Sys n} {e d : Nat}

theorem retarget_inClient : (s.retarget e d).inClient = s.inClient := by
  unfold Sys.inClient Sys.retarget
  cases s.frames with
  | nil => rfl
  | cons f fs => cases f <;> rfl

theorem timerFire_retarget {t : Fin n} : timerFire (s.retarget e d) t = (timerFire s t).map (.retarget e d) := by
  unfold timerFire
  rw [show (s.retarget e d).ctx = s.ctx from rfl]
  split <;> rfl

theorem callStep_retarget {op : Op n} : callStep (s.retarget e d) op = (callStep s op).map (.retarget e d) := by
  cases op with
  | fire t =>
    simp only [callStep, show (s.retarget e d).ctx = s.ctx from rfl]
    split
    · exact timerFire_retarget
    · rfl
  | _ => rfl

/-- **The steps do not depend on the end**, unless the loop finds another timer or returns, nor on the number of
callbacks counted before. -/
theorem step_retarget {a : Act n} (ha : ∀ us, a ≠ .advance us)
    (hloop : ∀ e' k fs, s.frames = .advance e' k :: fs → nextExpired s.ctx e = nextExpired s.ctx e' ∧
      (nextExpired s.ctx e' = none → e = e')) :
    step (s.retarget e d) a = (step s a).map (.retarget e d) := by
  cases a with
  | call op =>
    simp only [step, retarget_inClient]
    split
    · exact callStep_retarget
    · rfl
  | advance us => exact absurd rfl (ha us)
  | ret =>
    obtain ⟨c, fs, v⟩ := s
    rcases fs with _ | ⟨_ | t, fs⟩
    · rfl
    · rfl
    · rcases fs with _ | ⟨⟨e', k⟩ | t', fs⟩
      · rfl
      · simp [step, Sys.retarget, Frame.retarget, Nat.add_right_comm]
      · rfl
  | loop =>
    obtain ⟨c, fs, v⟩ := s
    rcases fs with _ | ⟨⟨e', k⟩ | t, fs⟩
    · rfl
    · obtain ⟨h1, h2⟩ := hloop e' k fs rfl
      simp only at h1 h2
      simp only [step, Sys.retarget, List.map_cons, Frame.retarget, advanceLoop, h1]
      cases hne : nextExpired c e' with
      | some t => exact timerFire_retarget (s := ⟨c.setNow (c.timers t).expiryUs, .advance e' k :: fs, v⟩)
      | none => rw [h2 hne]; rfl
    · rfl

namespace Client

variable {C : Client n κ} {x y : Run n κ} {o : Outcome n κ} {tr : List (Fin n × Nat)}

theorem act_retarget : C.act (x.retarget e d tr) = C.act x := by
  obtain ⟨c, fs, k, l⟩ := x
  rcases fs with _ | ⟨_ | _, fs⟩ <;> rfl

theorem act_ne_advance {us : Nat} : C.act x ≠ .advance us := by
  unfold act
  split
  · nofun
  · split <;> nofun

theorem sys_retarget : (x.retarget e d tr).sys = x.sys.retarget e d := rfl

theorem after_retarget (hv : ∀ k, s.ret = .count k → s.frames = []) :
    C.after (x.retarget e d tr) (s.retarget e d) = (C.after x s).map (Run.retarget e d tr) (Outcome.add d tr) := by
  obtain ⟨c, fs, v⟩ := s
  rcases fs with _ | ⟨_ | t, fs⟩
  · cases v <;> rfl
  · cases v <;> rfl
  · have hobs : (∀ k, v ≠ .count k) → C.observe (x.retarget e d tr) (Sys.retarget e d ⟨c, .callback t :: fs, v⟩) =
        (C.observe x ⟨c, .callback t :: fs, v⟩).retarget e d tr := fun hv => by
      have hadd : v.add d = v := by cases v <;> first | rfl | exact absurd rfl (hv _)
      simp only [observe, Sys.retarget, Run.retarget, List.map_cons, Frame.retarget, List.length_cons,
        List.length_map, hadd]
      split
      · simp [Frame.retarget]
      · simp [Frame.retarget]
    cases v with
    | count k => cases hv k rfl
    | status | timer | active | now => exact congrArg Sum.inl (hobs nofun)

/-- The stack of a run: callbacks above the loop, whose end is `e` and whose count is `k`. -/
inductive Above (e : Nat) : List (Frame n) → Nat → Prop
  | loop (k : Nat) : Above e [.advance e k] k
  | callback {fs : List (Frame n)} {k : Nat} (t : Fin n) : Above e fs k → Above e (.callback t :: fs) k

/-- A step of a run: it goes on, or the loop returns. -/
theorem step_above {k : Nat} (hx : Above e x.frames k) {s' : Sys n} (h : Manual.step x.sys (C.act x) = some s') :
    (∃ k', Above e s'.frames k' ∧ ∀ c, s'.ret ≠ .count c) ∨
      x.frames = [.advance e k] ∧ nextExpired x.ctx e = none ∧ s' = ⟨x.ctx.setNow e, [], .count k⟩ := by
  have hm := step_move h
  have ha : ∀ us, C.act x ≠ .advance us := fun us => act_ne_advance
  generalize C.act x = a at hm ha
  cases hm with
  | install | uninstall | stop | arm => exact .inl ⟨k, hx, nofun⟩
  | @quiet op v _ hq =>
    refine .inl ⟨k, hx, fun c hv => ?_⟩
    have hv : v = .count c := hv
    subst hv
    cases op <;> simp [Op.Quiet] at hq
  | fire hc => exact .inl ⟨k, .callback _ hx, nofun⟩
  | advance => exact absurd rfl (ha _)
  | @retLoop t e' k' fs hf =>
    have hf : x.frames = _ := hf
    rw [hf] at hx
    cases hx with
    | callback _ hx =>
      cases hx with
      | loop => exact .inl ⟨k + 1, .loop _, nofun⟩
  | @retFire t fs hf hno =>
    have hf : x.frames = _ := hf
    rw [hf] at hx ⊢
    cases hx with
    | callback _ hx =>
      cases hx with
      | loop => exact absurd rfl (hno _ _ _)
      | callback _ hx => exact .inl ⟨k, .callback _ hx, nofun⟩
  | alarm => exact .inl ⟨k, .callback _ hx, nofun⟩
  | @done e' k' fs hf hne =>
    have hf : x.frames = _ := hf
    rw [hf] at hx
    cases hx with
    | loop => exact .inr ⟨hf, hne, rfl⟩

/-- **The steps of a run do not depend on the end**, unless the loop finds another timer or returns, nor on the number
of callbacks counted before. -/
theorem step_retarget {e' k : Nat} (hx : Above e' x.frames k)
    (hloop : x.frames = [.advance e' k] → nextExpired x.ctx e = nextExpired x.ctx e' ∧
      (nextExpired x.ctx e' = none → e = e')) :
    C.step (x.retarget e d tr) = (C.step x).map (Sum.map (Run.retarget e d tr) (Outcome.add d tr)) := by
  have hstep : Manual.step (x.sys.retarget e d) (C.act x) = (Manual.step x.sys (C.act x)).map (.retarget e d) := by
    refine Manual.step_retarget (fun us => act_ne_advance) fun e₁ k₁ fs hf => ?_
    have hf : x.frames = _ := hf
    rw [hf] at hx
    cases hx
    exact hloop hf
  rw [step, step, sys_retarget, act_retarget, hstep, Option.map_map, Option.map_map]
  refine Option.map_congr fun s' hs => after_retarget fun c hc => ?_
  rcases step_above hx hs with ⟨-, -, h⟩ | ⟨-, -, rfl⟩
  · exact absurd hc (h c)
  · rfl

/-- A run goes on. -/
theorem above_of_step {k : Nat} (hx : Above e x.frames k) (h : C.step x = some (.inl y)) :
    ∃ k', Above e y.frames k' := by
  obtain ⟨s', hs, ha⟩ := Option.map_eq_some_iff.mp h
  rcases step_above hx hs with ⟨k', h1, h2⟩ | ⟨-, -, rfl⟩
  · have hy : y.frames = s'.frames := by
      unfold after at ha
      split at ha
      · cases ha
      · rw [← Sum.inl.inj ha, observe]
        split
        · split <;> simp_all
        · rfl
    exact ⟨k', hy ▸ h1⟩
  · cases ha

/-- A run ends when the loop finds no timer. -/
theorem stop_of_step {k : Nat} (hx : Above e x.frames k) (h : C.step x = some (.inr o)) :
    x.frames = [.advance e k] ∧ nextExpired x.ctx e = none ∧ o = ⟨x.ctx.setNow e, x.client, k, x.trace⟩ := by
  obtain ⟨s', hs, ha⟩ := Option.map_eq_some_iff.mp h
  rcases step_above hx hs with ⟨k', h1, h2⟩ | ⟨h1, h2, rfl⟩
  · unfold after at ha
    split at ha
    · exact absurd ‹_› (h2 _)
    · cases ha
  · exact ⟨h1, h2, (Sum.inr.inj ha).symm⟩

end Client

end Retarget

end Gabs.Timer.Manual
