import Gabs.Timer.Manual.Sane

/-!
# The manual timer: the full range of times

- `Plain`: no bound is put on the delays and advances, and callbacks only read the clock;
- `Chronicle`: the clock wherever it can be read, the armings that stand with the amounts advanced since, and whether a
  sum has wrapped;
- `Told`: while no sum has wrapped the clock goes forward and callbacks are punctual; once one has, they do not;
- `time_forward`: so the clock goes forward and no callback is early exactly when no sum wraps.
-/

namespace Gabs.Timer.Manual

open Gabs.Lib

variable {n : Nat}

/-! ## The chronicle -/

/-- **Calls are made outside callbacks**, with any `uint64_t`; a callback only reads the clock. -/
def Plain (s : Sys n) : Act n → Prop
  | .call .now => True
  | .call (.fire _) => False
  | .call _ => s.frames = []
  | .advance us => s.frames = [] ∧ us < 2 ^ 64
  | _ => True

instance (s : Sys n) (a : Act n) : Decidable (Plain s a) :=
  match a with
  | .call (.fire _) => instDecidableFalse
  | .call (.install ..) | .call (.uninstall _) | .call (.start ..) | .call (.restart ..) | .call (.stop _)
  | .call (.active _) => inferInstanceAs (Decidable (_ = _))
  | .advance _ => inferInstanceAs (Decidable (_ ∧ _))
  | .call .now | .ret | .loop => instDecidableTrue

/-- An arming: the clock, the delay, and the amounts advanced since, that of the running call included. -/
structure Watch where
  clock : Nat
  delay : Nat
  advanced : Nat
  deriving DecidableEq

/-- The values that `gabs_timer_manual_now` returns or would return, wherever code of the client runs; the last arming
of each timer; the armings that callbacks were run for; and whether a sum has wrapped: that of a call of
`gabs_timer_manual_advance`, or that of an arming for which a callback was run. -/
structure Chronicle (n : Nat) where
  seen : List Nat
  watch : Fin n → Watch
  callbacks : List Watch
  wrapped : Bool

namespace Chronicle

/-- The clock starts at 0. -/
def start : Chronicle n := ⟨[0], fun _ => ⟨0, 0, 0⟩, [], false⟩

/-- Timer `t` is armed. -/
def arm (g : Chronicle n) (t : Fin n) (w : Watch) : Chronicle n := { g with watch := Function.update g.watch t w }

/-- A call of `gabs_timer_manual_advance` begins; `b`: its sum wraps. -/
def lapse (g : Chronicle n) (us : Nat) (b : Bool) : Chronicle n :=
  { g with
    watch := fun t => { g.watch t with advanced := (g.watch t).advanced + us }
    wrapped := g.wrapped || b }

/-- A callback is run for timer `t`. -/
def ring (g : Chronicle n) (t : Fin n) : Chronicle n :=
  { g with
    callbacks := g.callbacks ++ [g.watch t]
    wrapped := g.wrapped || decide (2 ^ 64 ≤ (g.watch t).clock + (g.watch t).delay) }

/-- What an action in `s` adds. -/
def note (s : Sys n) (g : Chronicle n) : Act n → Chronicle n
  | .call op => match op.arms s.ctx with
    | some (t, us) => g.arm t ⟨s.ctx.nowUs, us, 0⟩
    | none => g
  | .advance us => g.lapse us (decide (2 ^ 64 ≤ s.ctx.nowUs + us))
  | .loop => match s.frames with
    | .advance e _ :: _ => match nextExpired s.ctx e with
      | some t => g.ring t
      | none => g
    | _ => g
  | .ret => g

/-- The clock can be read in `s`. -/
def see (g : Chronicle n) (s : Sys n) : Chronicle n :=
  if s.inClient then { g with seen := g.seen ++ [s.ctx.nowUs] } else g

/-- The history after one more step. -/
def record (s : Sys n) (a : Act n) (s' : Sys n) (g : Chronicle n) : Chronicle n := (g.note s a).see s'

/-- **The clock never decreases** from one observation to the next. -/
def Forward (g : Chronicle n) : Prop := g.seen.Pairwise (· ≤ ·)

/-- **No callback is early.** -/
def Punctual (g : Chronicle n) : Prop := ∀ w ∈ g.callbacks, w.delay ≤ w.advanced

end Chronicle

/-- The system with its chronicle. -/
def chronicles (n : Nat) : Lts (Sys n × Chronicle n) (Act n) := (system n).record .start Chronicle.record

/-! ## The invariant -/

/-- The clock at the end of the running call of `gabs_timer_manual_advance`, or else the clock. -/
def Sys.horizon (s : Sys n) : Nat :=
  match running s.frames with
  | some (e, _) => e
  | none => s.ctx.nowUs

/-- What holds while no sum has wrapped. -/
structure Timely (s : Sys n) (g : Chronicle n) : Prop where
  forward : g.Forward
  punctual : g.Punctual
  last : ∀ v ∈ g.seen, v ≤ s.ctx.nowUs
  inTime : s.ctx.nowUs ≤ s.horizon
  watch : ∀ t, (s.ctx.timers t).used = true → (s.ctx.timers t).active = true →
    (s.ctx.timers t).expiryUs = wrap ((g.watch t).clock + (g.watch t).delay) ∧
      (g.watch t).clock + (g.watch t).advanced = s.horizon
  ahead : ∀ t, (s.ctx.timers t).used = true → (s.ctx.timers t).active = true →
    (g.watch t).clock + (g.watch t).delay < 2 ^ 64 → s.ctx.nowUs ≤ (s.ctx.timers t).expiryUs

/-- Something has gone wrong, or will when the running call returns. -/
def Doomed (s : Sys n) (g : Chronicle n) : Prop := ¬ (g.Forward ∧ g.Punctual) ∨ ∃ v ∈ g.seen, s.horizon < v

/-- **The invariant.** -/
structure Told (s : Sys n) (g : Chronicle n) : Prop where
  flat : Flat s.frames
  bounded : s.horizon < 2 ^ 64
  timely : g.wrapped = false → Timely s g
  doomed : g.wrapped = true → Doomed s g

variable {s s' : Sys n} {g : Chronicle n}

theorem Told.init : Told (boot n) .start := by
  refine ⟨trivial, Nat.two_pow_pos 64, ?_, nofun⟩
  intro _
  refine ⟨List.pairwise_singleton .., nofun, ?_, le_rfl, nofun, nofun⟩
  intro v hv
  exact (List.mem_singleton.mp hv).le

/-! ## The steps -/

/-- The clock is read once more. -/
theorem Told.see (hi : Told s g) : Told s (g.see s) := by
  unfold Chronicle.see
  split
  · refine ⟨hi.flat, hi.bounded, fun hw => ?_, fun hw => ?_⟩
    · have htl := hi.timely hw
      refine ⟨?_, htl.punctual, ?_, htl.inTime, htl.watch, htl.ahead⟩
      · refine List.pairwise_append.mpr ⟨htl.forward, List.pairwise_singleton .., ?_⟩
        intro v hv w hw
        rw [List.mem_singleton.mp hw]
        exact htl.last v hv
      · intro v hv
        rcases List.mem_append.mp hv with hv | hv
        · exact htl.last v hv
        · exact (List.mem_singleton.mp hv).le
    · rcases hi.doomed hw with hbad | ⟨v, hv, hlt⟩
      · exact .inl fun hgood => hbad ⟨(List.pairwise_append.mp hgood.1).1, hgood.2⟩
      · exact .inr ⟨v, List.mem_append_left _ hv, hlt⟩
  · exact hi

/-- Where code of the client runs, the clock has been read. -/
theorem see_last (hc : s.inClient = true) : (g.see s).seen.getLast? = some s.ctx.nowUs := by
  rw [Chronicle.see, if_pos hc, List.getLast?_concat]

/-- A step that leaves the clock and the running call alone, and arms nothing. -/
theorem Told.keep (hi : Told s g) (hn : s'.ctx.nowUs = s.ctx.nowUs) (hh : s'.horizon = s.horizon) (hf : Flat s'.frames)
    (ht : ∀ t, (s'.ctx.timers t).used = true → (s'.ctx.timers t).active = true →
      s'.ctx.timers t = s.ctx.timers t) : Told s' g := by
  refine ⟨hf, hh ▸ hi.bounded, fun hw => ?_, fun hw => ?_⟩
  · have htl := hi.timely hw
    refine ⟨htl.forward, htl.punctual, hn ▸ htl.last, ?_, ?_, ?_⟩
    · rw [hn, hh]
      exact htl.inTime
    · intro t hu ha
      have he := ht t hu ha
      rw [hh, he]
      exact htl.watch t (he ▸ hu) (he ▸ ha)
    · intro t hu ha hlt
      have he := ht t hu ha
      rw [hn, he]
      exact htl.ahead t (he ▸ hu) (he ▸ ha) hlt
  · rcases hi.doomed hw with hbad | ⟨v, hv, hlt⟩
    · exact .inl hbad
    · exact .inr ⟨v, hv, hh ▸ hlt⟩

theorem arm_watch_self (t : Fin n) (w : Watch) : (g.arm t w).watch t = w := Function.update_self ..

theorem arm_watch_of_ne {t u : Fin n} (hu : u ≠ t) (w : Watch) : (g.arm t w).watch u = g.watch u :=
  Function.update_of_ne hu ..

/-- A timer is armed outside callbacks. -/
theorem Told.arm (hi : Told s g) (hf : s.frames = []) (t : Fin n) (us : Nat) (v : Ret n) :
    Told { s with ctx := s.ctx.arm t us, ret := v } (g.arm t ⟨s.ctx.nowUs, us, 0⟩) := by
  have hhor : s.horizon = s.ctx.nowUs := by rw [Sys.horizon, hf]; rfl
  refine ⟨hi.flat, hi.bounded, fun hw => ?_, hi.doomed⟩
  have htl := hi.timely hw
  refine ⟨htl.forward, htl.punctual, htl.last, htl.inTime, fun u hu ha => ?_, fun u hu ha hlt => ?_⟩
  · rcases eq_or_ne u t with rfl | hne
    · rw [arm_watch_self]
      refine ⟨?_, hhor.symm⟩
      show ((s.ctx.arm u us).timers u).expiryUs = wrap (s.ctx.nowUs + us)
      rw [arm_timers_self]
    · have he : (s.ctx.arm t us).timers u = s.ctx.timers u := arm_timers_of_ne hne
      have hold := htl.watch u (he ▸ hu) (he ▸ ha)
      rw [← he] at hold
      rw [arm_watch_of_ne hne]
      exact hold
  · rcases eq_or_ne u t with rfl | hne
    · rw [arm_watch_self] at hlt
      show s.ctx.nowUs ≤ ((s.ctx.arm u us).timers u).expiryUs
      rw [arm_timers_self, wrap_of_lt hlt]
      exact Nat.le_add_right ..
    · have he : (s.ctx.arm t us).timers u = s.ctx.timers u := arm_timers_of_ne hne
      rw [arm_watch_of_ne hne] at hlt
      have hold := htl.ahead u (he ▸ hu) (he ▸ ha) hlt
      rw [← he] at hold
      exact hold

/-- No value read before is above the last one. -/
theorem Chronicle.Forward.le_last (hf : g.Forward) {k v : Nat} (hl : g.seen.getLast? = some k) (hv : v ∈ g.seen) :
    v ≤ k := by
  obtain ⟨l, hseen⟩ := List.getLast?_eq_some_iff.mp hl
  unfold Chronicle.Forward at hf
  rw [hseen] at hf hv
  rcases List.mem_append.mp hv with hv | hv
  · exact (List.pairwise_append.mp hf).2.2 v hv k (List.mem_singleton.mpr rfl)
  · exact (List.mem_singleton.mp hv).le

/-- Where no call runs, something has gone wrong. -/
theorem Doomed.bad (hd : Doomed s g) (hf : s.frames = []) (hlast : g.seen.getLast? = some s.ctx.nowUs) :
    ¬ (g.Forward ∧ g.Punctual) := by
  have hhor : s.horizon = s.ctx.nowUs := by rw [Sys.horizon, hf]; rfl
  rcases hd with hbad | ⟨v, hv, hlt⟩
  · exact hbad
  · intro hgood
    have hle := hgood.1.le_last hlast hv
    omega

/-- A call of `gabs_timer_manual_advance` begins. -/
theorem Told.advance (hi : Told s g) (hf : s.frames = []) (hlast : g.seen.getLast? = some s.ctx.nowUs) {us : Nat}
    (hus : us < 2 ^ 64) : Told { s with frames := .advance (wrap (s.ctx.nowUs + us)) 0 :: s.frames }
      (g.lapse us (decide (2 ^ 64 ≤ s.ctx.nowUs + us))) := by
  have hhor : s.horizon = s.ctx.nowUs := by rw [Sys.horizon, hf]; rfl
  have hbound := hi.bounded
  rw [hhor] at hbound
  refine ⟨hf, Nat.mod_lt _ (by decide), fun hw => ?_, fun hw => ?_⟩
  · obtain ⟨hw, hlt⟩ : g.wrapped = false ∧ s.ctx.nowUs + us < 2 ^ 64 := by simpa [Chronicle.lapse] using hw
    have htl := hi.timely hw
    refine ⟨htl.forward, htl.punctual, htl.last, ?_, fun u hu ha => ?_, htl.ahead⟩
    · show s.ctx.nowUs ≤ wrap (s.ctx.nowUs + us)
      rw [wrap_of_lt hlt]
      exact Nat.le_add_right ..
    · obtain ⟨he, hsum⟩ := htl.watch u hu ha
      refine ⟨he, ?_⟩
      show (g.watch u).clock + ((g.watch u).advanced + us) = wrap (s.ctx.nowUs + us)
      rw [wrap_of_lt hlt, ← hhor, ← hsum, Nat.add_assoc]
  · by_cases hwas : g.wrapped = true
    · exact .inl ((hi.doomed hwas).bad hf hlast)
    · obtain hge : 2 ^ 64 ≤ s.ctx.nowUs + us := by simpa [Chronicle.lapse, hwas] using hw
      refine .inr ⟨s.ctx.nowUs, List.mem_of_getLast? hlast, ?_⟩
      show wrap (s.ctx.nowUs + us) < s.ctx.nowUs
      unfold wrap
      omega

/-- The next timer fires. -/
theorem Told.alarm (hi : Told s g) {t : Fin n} {e k : Nat} {fs : List (Frame n)} (hf : s.frames = .advance e k :: fs)
    (hne : nextExpired s.ctx e = some t) :
    Told ({ s with ctx := s.ctx.setNow (s.ctx.timers t).expiryUs }.fired t) (g.ring t) := by
  have hhor : s.horizon = e := by rw [Sys.horizon, hf]; rfl
  have hhor' : ({ s with ctx := s.ctx.setNow (s.ctx.timers t).expiryUs }.fired t).horizon = s.horizon := by
    simp only [Sys.horizon, Sys.fired, running_callback, hf, running_advance]
  obtain ⟨hut, hat, hle⟩ := due_iff.mp (nextExpired_some hne).1
  refine ⟨hi.flat, hhor'.symm ▸ hi.bounded, fun hw => ?_, fun hw => ?_⟩
  · obtain ⟨hw, hlt⟩ : g.wrapped = false ∧ (g.watch t).clock + (g.watch t).delay < 2 ^ 64 := by
      simpa [Chronicle.ring] using hw
    have htl := hi.timely hw
    obtain ⟨hexp, hsum⟩ := htl.watch t hut hat
    have hahead := htl.ahead t hut hat hlt
    rw [wrap_of_lt hlt] at hexp
    have hold : ∀ u, (((s.ctx.setNow (s.ctx.timers t).expiryUs).disarm t).timers u).active = true →
        ((s.ctx.setNow (s.ctx.timers t).expiryUs).disarm t).timers u = s.ctx.timers u := fun u h => active_of_put rfl h
    refine ⟨htl.forward, ?_, fun v hv => (htl.last v hv).trans hahead, ?_, fun u hu ha => ?_, fun u hu ha hlt => ?_⟩
    · intro w hw
      rcases List.mem_append.mp hw with hw | hw
      · exact htl.punctual w hw
      · rw [List.mem_singleton.mp hw]
        omega
    · rw [hhor', hhor]
      exact hle
    · have hu' := hold u ha
      have hw' := htl.watch u (hu' ▸ hu) (hu' ▸ ha)
      rw [← hu'] at hw'
      rw [hhor']
      exact hw'
    · have hu' := hold u ha
      have hfirst := nextExpired_first hne (hu' ▸ hu) (hu' ▸ ha)
      rw [← hu'] at hfirst
      exact hfirst
  · by_cases hwas : g.wrapped = true
    · rcases hi.doomed hwas with hbad | ⟨v, hv, hlt⟩
      · exact .inl fun hgood => hbad ⟨hgood.1, fun w hw => hgood.2 w (List.mem_append_left _ hw)⟩
      · exact .inr ⟨v, hv, hhor'.symm ▸ hlt⟩
    · have hge : 2 ^ 64 ≤ (g.watch t).clock + (g.watch t).delay := by simpa [Chronicle.ring, hwas] using hw
      have hbound := hi.bounded
      obtain ⟨-, hsum⟩ := (hi.timely (Bool.not_eq_true _ ▸ hwas)).watch t hut hat
      refine .inl fun hgood => ?_
      have hon := hgood.2 (g.watch t) (List.mem_append_right _ (List.mem_singleton.mpr rfl))
      omega

/-- The call returns. -/
theorem Told.done (hi : Told s g) {e k : Nat} {fs : List (Frame n)} (hf : s.frames = .advance e k :: fs)
    (hne : nextExpired s.ctx e = none) : Told ⟨s.ctx.setNow e, fs, .count k⟩ g := by
  have hhor : s.horizon = e := by rw [Sys.horizon, hf]; rfl
  obtain rfl : fs = [] := by
    have hflat := hi.flat
    rwa [hf] at hflat
  have hhor' : (⟨s.ctx.setNow e, [], .count k⟩ : Sys n).horizon = s.horizon := hhor.symm
  refine ⟨trivial, hhor' ▸ hi.bounded, fun hw => ?_, fun hw => ?_⟩
  · have htl := hi.timely hw
    have hle : s.ctx.nowUs ≤ e := hhor ▸ htl.inTime
    refine ⟨htl.forward, htl.punctual, fun v hv => (htl.last v hv).trans hle, le_rfl, fun u hu ha => ?_,
      fun u hu ha hlt => ?_⟩
    · rw [hhor']
      exact htl.watch u hu ha
    · exact (lt_of_not_due (nextExpired_none hne u) hu ha).le
  · rcases hi.doomed hw with hbad | ⟨v, hv, hlt⟩
    · exact .inl hbad
    · exact .inr ⟨v, hv, hhor' ▸ hlt⟩

/-- A call that changes nothing arms nothing. -/
theorem arms_of_quiet {c : Ctx n} {op : Op n} {v : Ret n} (hq : op.Quiet c v) : op.arms c = none := by
  cases op with
  | start t us => exact if_pos hq.1
  | restart t us => exact hq.elim
  | _ => rfl

/-- Timers are armed outside callbacks. -/
theorem Plain.frames {op : Op n} {x : Fin n × Nat} (hp : Plain s (.call op)) (ha : op.arms s.ctx = some x) :
    s.frames = [] := by
  cases op with
  | start t us => exact hp
  | restart t us => exact hp
  | _ => cases ha

/-- One step. -/
theorem Told.step {a : Act n} (hi : Told s g) (hlast : s.inClient = true → g.seen.getLast? = some s.ctx.nowUs)
    (hp : Plain s a) (h : Move s a s') : Told s' (g.note s a) := by
  cases h with
  | install => exact hi.keep rfl rfl hi.flat fun t _ ha => active_of_put rfl ha
  | uninstall => exact hi.keep rfl rfl hi.flat fun t _ ha => active_of_put rfl ha
  | stop => exact hi.keep rfl rfl hi.flat fun t _ ha => active_of_put rfl ha
  | fire => exact hp.elim
  | @quiet op v hc hq =>
    have hnote : g.note s (.call op) = g := by simp only [Chronicle.note, arms_of_quiet hq]
    rw [hnote]
    exact hi.keep rfl rfl hi.flat fun _ _ _ => rfl
  | @arm op t us hc ha =>
    have hnote : g.note s (.call op) = g.arm t ⟨s.ctx.nowUs, us, 0⟩ := by
      simp only [Chronicle.note, ha]
    rw [hnote]
    exact hi.arm (hp.frames ha) t us (.status 0)
  | advance hc => exact hi.advance hp.1 (hlast hc) hp.2
  | retLoop hf =>
    have hflat := hi.flat
    rw [hf] at hflat
    exact hi.keep rfl (by simp only [Sys.horizon, hf, running_callback, running_advance]) hflat fun _ _ _ => rfl
  | retFire hf hno =>
    have hflat := hi.flat
    rw [hf] at hflat
    exact hi.keep rfl (by simp only [Sys.horizon, hf, running_callback]) hflat fun _ _ _ => rfl
  | @alarm t e k fs hf hne =>
    have hnote : g.note s .loop = g.ring t := by simp only [Chronicle.note, hf, hne]
    rw [hnote]
    exact hi.alarm hf hne
  | @done e k fs hf hne =>
    have hnote : g.note s .loop = g := by simp only [Chronicle.note, hf, hne]
    rw [hnote]
    exact hi.done hf hne

/-- The invariant in every reachable state; where code of the client runs, the last value read is the clock. -/
theorem told_of_reach {x : Sys n × Chronicle n} (hr : (chronicles n).Reach (fun x a => Plain x.1 a) x) :
    Told x.1 x.2 ∧ (x.1.inClient = true → x.2.seen.getLast? = some x.1.ctx.nowUs) := by
  refine hr.record_invariant
    (I := fun s g => Told s g ∧ (s.inClient = true → g.seen.getLast? = some s.ctx.nowUs)) ?_
    fun s a s' g _ hi hp h => ?_
  · rintro s rfl
    exact ⟨.init, fun _ => rfl⟩
  · exact ⟨(hi.1.step hi.2 hp (step_move h)).see, see_last⟩

/-! ## Time goes forward -/

/-- **Time goes forward exactly when no sum wraps.** What `gabs_timer_manual_now` returns is the last value seen. While
no call of `gabs_timer_manual_advance` has been made whose sum wraps, and no callback has been run for an arming whose
sum wraps, no value seen is below an earlier one, and no callback was early. Where no call runs, the converse holds too.
-/
theorem time_forward {x : Sys n × Chronicle n} (hr : (chronicles n).Reach (fun x a => Plain x.1 a) x) :
    (∀ s', step x.1 (.call .now) = some s' → ∃ us, s'.ret = .now us ∧ x.2.seen.getLast? = some us) ∧
    (x.2.wrapped = false → x.2.Forward ∧ x.2.Punctual) ∧
    (x.1.frames = [] → (x.2.Forward ∧ x.2.Punctual ↔ x.2.wrapped = false)) := by
  obtain ⟨hi, hlast⟩ := told_of_reach hr
  have hforward : x.2.wrapped = false → x.2.Forward ∧ x.2.Punctual := fun hw =>
    ⟨(hi.timely hw).forward, (hi.timely hw).punctual⟩
  refine ⟨fun s' hs => ?_, hforward, fun hf => ⟨fun hgood => ?_, hforward⟩⟩
  · cases step_move hs with
    | quiet hc hq => exact ⟨x.1.ctx.nowUs, hq, hlast hc⟩
    | arm hc ha => cases ha
  · by_contra hne
    have hclient : x.1.inClient = true := by rw [Sys.inClient, hf]
    exact (hi.doomed (Bool.not_eq_false _ ▸ hne)).bad hf (hlast hclient) hgood

/-- A timer that fires on time, and the last microsecond of the clock. -/
def lastMicrosecond : List (Act 1) :=
  [.call (.install (some 1) 0), .call (.start 0 5), .advance 3, .loop, .call .now, .advance (2 ^ 64 - 4), .loop,
    .call .now, .ret, .loop, .call .now]

theorem time_forward_run : ∃ x : Sys 1 × Chronicle 1, (chronicles 1).Reach (fun x a => Plain x.1 a) x ∧
    x.1.ctx.nowUs = 2 ^ 64 - 1 ∧ x.2.callbacks = [⟨0, 5, 2 ^ 64 - 1⟩] ∧ x.2.Forward ∧ x.2.Punctual := by
  obtain ⟨x, hr, hnow, hcb, hf, hw⟩ := Lts.Reach.run (M := chronicles 1) (P := fun x a => Plain x.1 a)
    (s := (boot 1, .start)) (Q := fun x => x.1.ctx.nowUs = 2 ^ 64 - 1 ∧ x.2.callbacks = [⟨0, 5, 2 ^ 64 - 1⟩] ∧
      x.1.frames = [] ∧ x.2.wrapped = false) ⟨rfl, rfl⟩ lastMicrosecond (by decide)
  exact ⟨x, hr, hnow, hcb, ((time_forward hr).2.2 hf).mpr hw⟩

/-- The sum of a delay wraps: the timer is due at once, at a time that has passed. -/
def longestDelay : List (Act 1) :=
  [.call (.install (some 1) 0), .advance 1, .loop, .call (.restart 0 (2 ^ 64 - 1)), .call .now, .advance 0, .loop,
    .call .now]

/-- **The clock steps back**, in a callback that is early. -/
theorem clock_steps_back : ∃ x : Sys 1 × Chronicle 1, (chronicles 1).Reach (fun x a => Plain x.1 a) x ∧
    x.2.callbacks = [⟨1, 2 ^ 64 - 1, 0⟩] ∧ ¬ x.2.Forward ∧ ¬ x.2.Punctual := by
  obtain ⟨x, hr, hcb, hseen⟩ := Lts.Reach.run (M := chronicles 1) (P := fun x a => Plain x.1 a)
    (s := (boot 1, .start)) (Q := fun x => x.2.callbacks = [⟨1, 2 ^ 64 - 1, 0⟩] ∧ x.2.seen = [0, 0, 1, 1, 1, 0, 0])
    ⟨rfl, rfl⟩ longestDelay (by decide)
  refine ⟨x, hr, hcb, ?_, ?_⟩
  · unfold Chronicle.Forward
    rw [hseen]
    decide
  · unfold Chronicle.Punctual
    rw [hcb]
    decide

end Gabs.Timer.Manual
