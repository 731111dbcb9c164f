import Gabs.Timer.Manual.Sane

/-!
# The manual timer: the order in which timers fire

- `Course`: the last call of `gabs_timer_manual_advance`, with the timers its loop has fired;
- `Ordered`: what holds while it runs;
- `advance_in_order`: the timers fire in the order of their expiry and then of their starts, each with the clock at its
  expiry; at the end the clock is where it was asked to be, and no timer is due; the callbacks are counted in an `int`;
- `count_overflows`: a call that runs more of them than an `int` can count.
-/

namespace Gabs.Timer.Manual

open Gabs.Lib

variable {n : Nat}

/-! ## The firings -/

/-- A timer that the loop has fired: its expiry and sequence number, and the clock when its callback began. -/
structure Firing where
  expiryUs : Nat
  seq : Nat
  clock : Nat
  deriving DecidableEq

/-- The place of a firing in the order. -/
def Firing.key (f : Firing) : ℕ ×ₗ ℕ := toLex (f.expiryUs, f.seq)

/-- A call of `gabs_timer_manual_advance`: the clock at its beginning, its argument, and what it has fired. -/
structure Course where
  entry : Nat
  us : Nat
  fired : List Firing
  deriving DecidableEq

/-- The history after one more step. -/
def Course.record (s : Sys n) (a : Act n) (s' : Sys n) (g : Course) : Course :=
  match a with
  | .advance us => ⟨s.ctx.nowUs, us, []⟩
  | .loop => match s.frames with
    | .advance e _ :: _ => match nextExpired s.ctx e with
      | some t => { g with fired := g.fired ++ [⟨(s.ctx.timers t).expiryUs, (s.ctx.timers t).seq, s'.ctx.nowUs⟩] }
      | none => g
    | _ => g
  | _ => g

/-- The system with the last call of `gabs_timer_manual_advance`. -/
def courses (n : Nat) : Lts (Sys n × Course) (Act n) := (system n).record ⟨0, 0, []⟩ Course.record

/-! ## The invariant -/

/-- The callback that the loop waits for, if any, has fired and is not counted. -/
def uncounted (fs : List (Frame n)) : Nat :=
  match fs with
  | .callback _ :: _ => 1
  | _ => 0

/-- **What holds of the firings**: they are in order, and in time; while the call runs, all active timers come after
them. -/
structure Ordered (s : Sys n) (g : Course) : Prop where
  sorted : g.fired.Pairwise fun f f' => f.key < f'.key
  clock : ∀ f ∈ g.fired, f.clock = f.expiryUs ∧ g.entry ≤ f.clock ∧ f.clock ≤ g.entry + g.us
  counted : ∀ e k, running s.frames = some (e, k) → e = g.entry + g.us ∧ k + uncounted s.frames = g.fired.length
  after : ∀ p, running s.frames = some p → g.entry ≤ s.ctx.nowUs ∧ (∀ f ∈ g.fired.getLast?, s.ctx.nowUs = f.clock) ∧
    ∀ f ∈ g.fired, f.seq < s.ctx.nextSeq ∧ f.expiryUs ≤ s.ctx.nowUs ∧
      ∀ t, (s.ctx.timers t).active = true → f.key < s.ctx.key t

variable {s s' : Sys n} {g : Course}

theorem Ordered.init : Ordered (boot n) ⟨0, 0, []⟩ :=
  ⟨.nil, by simp, nofun, nofun⟩

/-- A step in which nothing fires, made while the clock stands. -/
theorem Ordered.keep (hi : Ordered s g) (hn : s'.ctx.nowUs = s.ctx.nowUs) (hq : s.ctx.nextSeq ≤ s'.ctx.nextSeq)
    (hr : ∀ e k, running s'.frames = some (e, k) → ∃ k', running s.frames = some (e, k') ∧
      k + uncounted s'.frames = k' + uncounted s.frames)
    (ht : ∀ t, (s'.ctx.timers t).active = true → s'.ctx.timers t = s.ctx.timers t ∨
      s.ctx.nowUs ≤ (s'.ctx.timers t).expiryUs ∧ (s'.ctx.timers t).seq = s.ctx.nextSeq) : Ordered s' g := by
  refine ⟨hi.sorted, hi.clock, fun e k h => ?_, fun p h => ?_⟩
  · obtain ⟨k', h1, h2⟩ := hr e k h
    exact ⟨(hi.counted e k' h1).1, h2.trans (hi.counted e k' h1).2⟩
  · obtain ⟨k', h1, -⟩ := hr p.1 p.2 h
    obtain ⟨h2, h3, h4⟩ := hi.after _ h1
    refine ⟨hn ▸ h2, hn ▸ h3, fun f hf => ?_⟩
    obtain ⟨h5, h6, h7⟩ := h4 f hf
    refine ⟨h5.trans_le hq, hn ▸ h6, fun t ha => ?_⟩
    rcases ht t ha with he | ⟨he, hs⟩
    · have := h7 t (he ▸ ha)
      rwa [Ctx.key, he]
    · refine Prod.Lex.toLex_lt_toLex.mpr ?_
      rcases (h6.trans he).lt_or_eq with hlt | heq
      · exact .inl hlt
      · exact .inr ⟨heq, hs ▸ h5⟩

theorem uncounted_of_inClient (hc : s.inClient = true) {p : Nat × Nat} (hr : running s.frames = some p) :
    uncounted s.frames = 1 := by
  unfold Sys.inClient at hc
  cases hf : s.frames with
  | nil => rw [hf] at hr; cases hr
  | cons f fs =>
    cases f with
    | callback t => rfl
    | advance e k => rw [hf] at hc; cases hc

/-- The next timer fires. -/
theorem Ordered.alarm (hi : Ordered s g) (hsane : Sane s) {t : Fin n} {e k : Nat} {fs : List (Frame n)}
    (hf : s.frames = .advance e k :: fs) (hne : nextExpired s.ctx e = some t) :
    Ordered ({ s with ctx := s.ctx.setNow (s.ctx.timers t).expiryUs }.fired t)
      (g.record s .loop ({ s with ctx := s.ctx.setNow (s.ctx.timers t).expiryUs }.fired t)) := by
  have hrun : running s.frames = some (e, k) := by rw [hf]; rfl
  obtain ⟨hdue, -⟩ := nextExpired_some hne
  obtain ⟨-, hat, hle⟩ := due_iff.mp hdue
  obtain ⟨hend, hcount⟩ := hi.counted e k hrun
  obtain ⟨hentry, -, hbefore⟩ := hi.after _ hrun
  have hahead := hsane.ahead t hat
  have hg : g.record s .loop ({ s with ctx := s.ctx.setNow (s.ctx.timers t).expiryUs }.fired t) =
      { g with fired :=
          g.fired ++ [⟨(s.ctx.timers t).expiryUs, (s.ctx.timers t).seq, (s.ctx.timers t).expiryUs⟩] } := by
    simp only [Course.record, hf, hne]
    rfl
  rw [hg]
  refine ⟨List.pairwise_append.mpr ⟨hi.sorted, List.pairwise_singleton .., fun f hf' f' hf'' => ?_⟩, fun f hf' => ?_,
    fun e' k' h => ?_, fun p h => ⟨hentry.trans hahead, fun f hf' => ?_, fun f hf' => ?_⟩⟩
  · rw [List.mem_singleton.mp hf'']
    exact (hbefore f hf').2.2 t hat
  · rcases List.mem_append.mp hf' with hf' | hf'
    · exact hi.clock f hf'
    · rw [List.mem_singleton.mp hf']
      exact ⟨rfl, hentry.trans hahead, hle.trans hend.le⟩
  · have h' : running s.frames = some (e', k') := h
    rw [hrun] at h'
    cases h'
    refine ⟨hend, ?_⟩
    rw [hf] at hcount
    simp only [List.length_append, List.length_singleton, ← hcount]
    rfl
  · rw [List.getLast?_concat, Option.mem_some_iff] at hf'
    rw [← hf']
    rfl
  · have hold : ∀ u, (((s.ctx.setNow (s.ctx.timers t).expiryUs).disarm t).timers u).active = true →
        ((s.ctx.setNow (s.ctx.timers t).expiryUs).disarm t).timers u = s.ctx.timers u ∧ u ≠ t := by
      refine fun u h => ⟨active_of_put rfl h, ?_⟩
      rintro rfl
      rw [disarm_active] at h
      cases h
    rcases List.mem_append.mp hf' with hf' | hf'
    · obtain ⟨h1, h2, h3⟩ := hbefore f hf'
      refine ⟨h1, h2.trans hahead, fun u ha => ?_⟩
      have := h3 u ((hold u ha).1 ▸ ha)
      rwa [Ctx.key, ← (hold u ha).1] at this
    · rw [List.mem_singleton.mp hf']
      refine ⟨hsane.seq t hat, le_rfl, fun u ha => ?_⟩
      have := hsane.key_lt hne ((hold u ha).1 ▸ ha) (hold u ha).2
      rwa [Ctx.key, Ctx.key, ← (hold u ha).1] at this

/-- One step. -/
theorem Ordered.step {a : Act n} (hi : Ordered s g) (hsane : Sane s) (hu : Usable s a) (h : Move s a s') :
    Ordered s' (g.record s a s') := by
  have hsame : ∀ e k, running s.frames = some (e, k) → ∃ k', running s.frames = some (e, k') ∧
      k + uncounted s.frames = k' + uncounted s.frames := fun e k h => ⟨k, h, rfl⟩
  cases h with
  | install => exact hi.keep rfl le_rfl hsame fun t ha => .inl (active_of_put rfl ha)
  | uninstall => exact hi.keep rfl le_rfl hsame fun t ha => .inl (active_of_put rfl ha)
  | stop => exact hi.keep rfl le_rfl hsame fun t ha => .inl (active_of_put rfl ha)
  | quiet => exact hi.keep rfl le_rfl hsame fun t ha => .inl rfl
  | @fire t hc =>
    refine hi.keep rfl le_rfl (fun e k h => ⟨k, h, ?_⟩) fun t ha => .inl (active_of_put rfl ha)
    rw [uncounted_of_inClient hc h]
    rfl
  | @arm op t us hc ha =>
    obtain ⟨h1, h2⟩ := hu.2 (t, us) ha
    refine hi.keep rfl ?_ hsame fun u hau => ?_
    · rw [arm_nextSeq, wrap_of_lt h2]; exact Nat.le_succ _
    · rcases eq_or_ne u t with rfl | hn
      · rw [arm_timers_self, wrap_of_lt h1]
        exact .inr ⟨Nat.le_add_right .., rfl⟩
      · exact .inl (arm_timers_of_ne hn)
  | @advance us hc =>
    refine ⟨.nil, by simp [Course.record], fun e k h => ?_,
      fun p h => ⟨le_rfl, by simp [Course.record], by simp [Course.record]⟩⟩
    cases h
    exact ⟨wrap_of_lt hu.2, rfl⟩
  | @retLoop t e k fs hf =>
    refine hi.keep rfl le_rfl (fun e' k' h => ?_) fun t ha => .inl rfl
    cases h
    refine ⟨k, by rw [hf]; rfl, ?_⟩
    rw [hf]
    rfl
  | @retFire t fs hf hno =>
    refine hi.keep rfl le_rfl (fun e k h => ⟨k, by rw [hf]; exact h, ?_⟩) fun t ha => .inl rfl
    rw [hf]
    cases fs with
    | nil => cases h
    | cons f fs =>
      cases f with
      | callback => rfl
      | advance e' k' => exact absurd rfl (hno e' k' fs)
  | @alarm t e k fs hf hne =>
    exact hi.alarm hsane hf hne
  | @done e k fs hf hne =>
    have hg : g.record s .loop ⟨s.ctx.setNow e, fs, .count k⟩ = g := by simp only [Course.record, hf, hne]
    have hfs : fs = [] := by have := hsane.flat; rwa [hf] at this
    rw [hg]
    subst hfs
    exact ⟨hi.sorted, hi.clock, nofun, nofun⟩

theorem ordered_of_reach {x : Sys n × Course} (hr : (courses n).Reach (fun x a => Usable x.1 a) x) :
    Ordered x.1 x.2 := by
  refine hr.record_invariant (I := fun s g => Ordered s g) ?_ fun s a s' g hr hi hu h => ?_
  · rintro s rfl; exact .init
  · exact hi.step (sane_of_reach hr.fst) hu (step_move h)

/-! ## A callback that restarts its timer -/

/-- The only timer of a pool is due a microsecond after `us`; it has been started once each microsecond. -/
def beatCtx (us : Nat) : Ctx 1 := ⟨us, us + 1, fun _ => ⟨some 0, 0, true, true, us + 1, us⟩⟩

/-- Its callback runs. -/
def firedCtx (us : Nat) : Ctx 1 := ⟨us + 1, us + 1, fun _ => ⟨some 0, 0, true, false, us + 1, us⟩⟩

section Beat

variable {us e k : Nat} {fs : List (Frame 1)} {v : Ret 1}

theorem put_one (c : Ctx 1) (t : Slot) : c.put 0 t = ⟨c.nowUs, c.nextSeq, fun _ => t⟩ := by
  refine Ctx.ext rfl rfl (funext fun i => ?_)
  rw [Subsingleton.elim i 0]
  exact Function.update_self (0 : Fin 1) t c.timers

theorem nextExpired_beat : nextExpired (beatCtx us) e = if e < us + 1 then none else some 0 := by
  simp [nextExpired, pick, beatCtx, List.finRange_succ]

theorem beat_alarm (h : us < e) : step ⟨beatCtx us, .advance e k :: fs, v⟩ .loop =
    some ⟨firedCtx us, .callback 0 :: .advance e k :: fs, v⟩ := by
  have hne : nextExpired (beatCtx us) e = some 0 := by rw [nextExpired_beat, if_neg (Nat.not_lt.mpr h)]
  simp only [step, advanceLoop, hne, timerFire, put_one]
  rfl

theorem beat_done : step ⟨beatCtx e, .advance e k :: fs, v⟩ .loop = some ⟨beatCtx e, fs, .count k⟩ := by
  have hne : nextExpired (beatCtx e) e = none := by rw [nextExpired_beat, if_pos (Nat.lt_succ_self e)]
  simp only [step, advanceLoop, hne]
  rfl

theorem fired_restart (h : us + 2 < 2 ^ 64) : step ⟨firedCtx us, .callback 0 :: fs, v⟩ (.call (.restart 0 1)) =
    some ⟨beatCtx (us + 1), .callback 0 :: fs, .status 0⟩ := by
  have hw : wrap (us + 1 + 1) = us + 1 + 1 := wrap_of_lt h
  simp only [step, Sys.inClient, callStep, restart, firedCtx, hw, put_one, if_true]
  rfl

/-- The timer is installed and started. -/
theorem start_beat : step ⟨(install (ctxInit 1) (some 0) 0).1, [], v⟩ (.call (.start 0 1)) =
    some ⟨beatCtx 0, [], .status 0⟩ := by
  have hinstalled : (install (ctxInit 1) (some 0) 0).1 = ⟨0, 0, fun _ => ⟨some 0, 0, true, false, 0, 0⟩⟩ :=
    put_one _ _
  rw [hinstalled]
  simp only [step, Sys.inClient, callStep, start, restart, put_one, if_true]
  rfl

end Beat

/-- A step, with the history. -/
theorem reach_step {s s' : Sys n} {g : Course} (a : Act n)
    (hr : (courses n).Reach (fun x a => Usable x.1 a) (s, g)) (hu : Usable s a) (hs : step s a = some s') :
    (courses n).Reach (fun x a => Usable x.1 a) (s', g.record s a s') :=
  hr.step hu (by simp only [courses, Lts.record, system, hs, Option.map_some])

theorem reach_start_beat :
    (courses 1).Reach (fun x a => Usable x.1 a) (⟨beatCtx 0, [], .status 0⟩, ⟨0, 0, []⟩) := by
  have h0 : (courses 1).Reach (fun x a => Usable x.1 a) (boot 1, ⟨0, 0, []⟩) := .init ⟨rfl, rfl⟩
  have hinstall := reach_step (.call (.install (some 0) 0)) h0 (by decide) rfl
  exact reach_step (.call (.start 0 1)) hinstall (by decide) start_beat

/-- A call that ends at `e` begins. -/
theorem reach_first_beat {e : Nat} (he : e < 2 ^ 64) :
    (courses 1).Reach (fun x a => Usable x.1 a) (⟨beatCtx 0, [.advance e 0], .status 0⟩, ⟨0, e, []⟩) := by
  have hend : wrap ((beatCtx 0).nowUs + e) = e := (congrArg wrap (Nat.zero_add e)).trans (wrap_of_lt he)
  have hadvance := reach_step (.advance e) reach_start_beat ⟨rfl, (Nat.zero_add e).trans_lt he⟩ rfl
  rw [hend] at hadvance
  exact hadvance

/-- The callback restarts its timer, with a delay of one microsecond, until the end at `e`. -/
theorem reach_beat {e : Nat} (he : e + 1 < 2 ^ 64) : ∀ {us : Nat}, us ≤ e → ∃ (v : Ret 1) (g : Course),
    (courses 1).Reach (fun x a => Usable x.1 a) (⟨beatCtx us, [.advance e us], v⟩, g) ∧ g.fired.length = us := by
  intro us
  induction us with
  | zero =>
    intro _
    exact ⟨_, _, reach_first_beat (Nat.lt_of_succ_lt he), rfl⟩
  | succ us ih =>
    intro hle
    obtain ⟨v, g, hr, hg⟩ := ih (Nat.le_of_succ_le hle)
    have hfire := reach_step .loop hr trivial (beat_alarm hle)
    have hrestart := reach_step (.call (.restart 0 1)) hfire ⟨fun t ht => rfl, fun x hx => ?_⟩
      (fired_restart (by omega))
    · have hret := reach_step .ret hrestart trivial rfl
      refine ⟨_, _, hret, ?_⟩
      have hne : nextExpired (beatCtx us) e = some 0 := by rw [nextExpired_beat, if_neg (Nat.not_lt.mpr hle)]
      simp [Course.record, hne, hg]
    · obtain rfl := Option.mem_some_iff.mp hx
      have hlt : us + 1 + 1 < 2 ^ 64 := by omega
      exact ⟨hlt, hlt⟩

/-! ## The order of the callbacks -/

/-- **Timers fire in order.** The loop of the last `gabs_timer_manual_advance` has fired timers with increasing pairs of
expiry and sequence number, each with the clock at its expiry and between the clock at the entry and the end; while one
of these callbacks runs the clock stays there. When the call returns, the clock is at the end, no timer is due, and what
it returns is the number of the callbacks exactly if they are at most `INT_MAX`. -/
theorem advance_in_order {x : Sys n × Course} (hr : (courses n).Reach (fun x a => Usable x.1 a) x) :
    (x.2.fired.Pairwise fun f f' => f.key < f'.key) ∧
    (∀ f ∈ x.2.fired, f.clock = f.expiryUs ∧ x.2.entry ≤ f.clock ∧ f.clock ≤ x.2.entry + x.2.us) ∧
    ((running x.1.frames).isSome = true → ∀ f ∈ x.2.fired.getLast?, x.1.ctx.nowUs = f.expiryUs) ∧
    ∀ s', step x.1 .loop = some s' → s'.frames = [] → s'.ctx.nowUs = x.2.entry + x.2.us ∧
      (∀ t, (s'.ctx.timers t).used = true → (s'.ctx.timers t).active = true →
        s'.ctx.nowUs < (s'.ctx.timers t).expiryUs) ∧
      (s'.ret.int = some (x.2.fired.length : Int) ↔ x.2.fired.length ≤ intMax) := by
  have hi := ordered_of_reach hr
  have hsane := sane_of_reach hr.fst
  refine ⟨hi.sorted, hi.clock, fun hrun f hf => ?_, fun s' hs hfs => ?_⟩
  · obtain ⟨p, hp⟩ := Option.isSome_iff_exists.mp hrun
    rw [(hi.after p hp).2.1 f hf]
    exact (hi.clock f (List.mem_of_getLast? hf)).1
  · cases step_move hs with
    | alarm => cases hfs
    | @done e k fs hf hne =>
      obtain ⟨h1, h2⟩ := hi.counted e k (by rw [hf]; rfl)
      refine ⟨h1, fun t _ ha => hsane.lt_of_not_due (nextExpired_none hne t) ha, ?_⟩
      have hcount : k = x.2.fired.length := by rwa [hf] at h2
      rw [← hcount]
      exact intOf_eq_some_iff

/-- A callback restarts its timer with a delay of one microsecond, and 2^31 microseconds are advanced: all is in order,
but what the call returns is not the number of the callbacks. -/
theorem count_overflows : ∃ (x : Sys 1 × Course) (s' : Sys 1), (courses 1).Reach (fun x a => Usable x.1 a) x ∧
    step x.1 .loop = some s' ∧ s'.frames = [] ∧ x.2.fired.length = 2 ^ 31 ∧
    s'.ret.int ≠ some (x.2.fired.length : Int) := by
  obtain ⟨v, g, hr, hg⟩ := reach_beat (e := 2 ^ 31) (by decide) le_rfl
  refine ⟨_, _, hr, beat_done, rfl, hg, ?_⟩
  rw [hg]
  exact fun h => absurd (intOf_eq_some_iff.mp h) (by decide)

/-- Two timers that expire at the same time; the callback of one of them restarts it, to the end. -/
def threeFirings : List (Act 2) :=
  [.call (.install (some 1) 0), .call (.install (some 2) 0), .call (.start 1 5), .call (.start 0 5), .advance 10, .loop,
    .call (.restart 1 5), .ret, .loop, .ret, .loop, .ret]

theorem advance_in_order_run : ∃ (x : Sys 2 × Course) (s' : Sys 2), step x.1 .loop = some s' ∧
    x.2.fired = [⟨5, 0, 5⟩, ⟨5, 1, 5⟩, ⟨10, 2, 10⟩] ∧ s'.ctx.nowUs = 10 ∧ s'.ret.int = some 3 := by
  obtain ⟨x, hr, hf, hg, hst⟩ := Lts.Reach.run (M := courses 2) (P := fun x a => Usable x.1 a)
    (s := (boot 2, ⟨0, 0, []⟩))
    (Q := fun x => x.2.fired = [⟨5, 0, 5⟩, ⟨5, 1, 5⟩, ⟨10, 2, 10⟩] ∧ x.2.entry + x.2.us = 10 ∧
      (step x.1 .loop).any (fun s' => decide (s'.frames = [])) = true) ⟨rfl, rfl⟩ threeFirings (by decide)
  obtain ⟨s', hs', hfs⟩ := (Option.any_eq_true _ _).mp hst
  obtain ⟨h1, -, h2⟩ := (advance_in_order hr).2.2.2 s' hs' (of_decide_eq_true hfs)
  rw [hf] at h2
  exact ⟨x, s', hs', hf, h1.trans hg, h2.mpr (by decide)⟩

end Gabs.Timer.Manual
