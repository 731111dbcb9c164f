import Gabs.Timer.Posix.Overlap

/-!
# The POSIX timer: which overlapping calls clash

- `Recorded`: the history of two overlapping calls tells the bits, the timerfd and the two results;
- `Returned`: when the steps of a call that has returned were made;
- `Clash`: two starts that both find the timer idle, a start that does beside a restart, and a stop that lands across
  the `timerfd_settime` of an arming;
- `overlap_serial_iff`: two calls have the outcome of a serial order exactly when they do not clash;
  `overlap_clash`: a restart that a stop disarms.
-/

namespace Gabs.Timer.Posix

open Gabs.Lib

variable {n m : Nat} {s s' s₀ : Sys n m} {t : Fin n} {clock : Nat} {o o' : Obs} {c c' : Call n} {e : Ev} {q : Request}
  {l : List Ev} {v : Option Int}

section Runs

variable {th : Bool → Thread m} {qs : Bool → Request} {h : Stamps (Bool × Ev)} {b : Bool}

/-! ## What the steps wrote -/

/-- The writes to `BIT_SCHED`. -/
def wrSched : Bool × Ev → Option Bool
  | (_, .clear) => some false
  | (_, .sched) => some true
  | _ => none

/-- The writes to `BIT_ACTIVE`. -/
def wrActive : Bool × Ev → Option Bool
  | (_, .clear) => some false
  | _ => none

/-- What a call sets the timerfd to. -/
def Request.setting (clock : Nat) : Request → Timerfd
  | .start us | .restart us => armedFor clock us
  | .stop => disarmed

/-- The writes to the timerfd. -/
def wrTimer (clock : Nat) (q : Bool → Request) : Bool × Ev → Option (Option Timerfd)
  | (b, .settime) => some (some ((q b).setting clock))
  | _ => none

/-- A step writes what its event stands for. -/
theorem Turn.writes {clock : Nat} (hp : Place t (qs b) c l) (ht : Turn t clock o c e c' o' v) :
    o' = ⟨(wrSched (b, e)).getD o.sched, (wrActive (b, e)).getD o.active, (wrTimer clock qs (b, e)).getD o.timer⟩ := by
  cases ht with
  | settime us =>
    generalize hq : qs b = q at hp
    cases hp with
    | settime ha => cases ha <;> simp [wrSched, wrActive, wrTimer, hq, Request.setting]
  | stopSettime =>
    generalize hq : qs b = q at hp
    cases hp
    simp [wrSched, wrActive, wrTimer, hq, Request.setting]
  | _ => rfl

/-- **The history tells the state**: each part of it is what the last step on it wrote, a start has found the bits as
its event says, and a call returns `-EBUSY` where its check found the timer busy. -/
structure Recorded (s₀ : Sys n m) (th : Bool → Thread m) (t : Fin n) (q : Bool → Request) (s : Sys n m)
    (h : Stamps (Bool × Ev)) : Prop where
  sched : LastWrite h.time wrSched (s₀.obs t).sched (s.obs t).sched
  active : LastWrite h.time wrActive (s₀.obs t).active (s.obs t).active
  timer : LastWrite h.time (wrTimer s₀.clock q) (s₀.obs t).timer (s.obs t).timer
  pass : ∀ b k, h.time (b, .pass) = some k →
    LastWrite (h.upto k) wrSched (s₀.obs t).sched false ∧ LastWrite (h.upto k) wrActive (s₀.obs t).active false
  busy : ∀ b k, h.time (b, .busy) = some k →
    LastWrite (h.upto k) wrSched (s₀.obs t).sched true ∨ LastWrite (h.upto k) wrActive (s₀.obs t).active true
  ret : ∀ b, s.calls (th b) = .idle →
    s.ret (th b) = some (.status (if h.time (b, .busy) = none then 0 else -eBusy))

theorem Place.not_busy (hp : Place t q c l) (hc : c ≠ .idle) : Ev.busy ∉ l := by
  cases hp with
  | busy | armed | stopped => exact absurd rfl hc
  | clear ha | settime ha | sched ha | trigger ha => cases ha <;> simp
  | check | stopClear | stopSettime | stopTrigger => simp

theorem Turn.returns (ht : Turn t clock o c e c' o' v) :
    c ≠ .idle ∧ (c' = .idle → v = some (if e = .busy then -eBusy else 0)) := by
  cases ht <;> simp

/-- What the check of a start has found. -/
theorem Turn.checked (ht : Turn t clock o c e c' o' v) :
    (e = .pass → o.sched = false ∧ o.active = false) ∧ (e = .busy → o.sched = true ∨ o.active = true) := by
  cases ht with
  | pass us hb => exact ⟨fun _ => by simpa using hb, nofun⟩
  | busy us hb => exact ⟨nofun, fun _ => by simpa using hb⟩
  | _ => exact ⟨nofun, nofun⟩

/-- The bits at an earlier time, as a later event finds the history. -/
theorem upto_mark_of {x : Bool × Ev} {k : Nat} {β : Type} {wr : Bool × Ev → Option β} {init w : β}
    (hl : LastWrite (h.upto k) wr init w) (hk : k ≤ h.now) (hx : h.time x = none) :
    LastWrite ((h.mark x).upto k) wr init w :=
  hl.congr fun _ _ => Stamps.upto_mark hk hx

theorem Recorded.step (hi : Recorded s₀ th t qs s h) (hrun : Running s₀ th t qs s h) (h₀ : Entered s₀ th t qs)
    (hs : callStep s (th b) .ok = some s') : Recorded s₀ th t qs s' (h.mark (b, (s.calls (th b)).event s)) := by
  obtain ⟨l, hp, hl⟩ := hrun.place b
  obtain ⟨o', v, ht, hst, -⟩ := hrun.turn h₀ hs
  generalize he : (s.calls (th b)).event s = e at ht ⊢
  rw [hrun.clock] at ht
  have hw := ht.writes hp
  have hnew : h.time (b, e) = none := hl.1 e (hp.turn ht).2
  rw [← hst.obs] at hw
  refine ⟨?_, ?_, ?_, fun c k hk => ?_, fun c k hk => ?_, fun c hc => ?_⟩
  · rw [hw]; exact LastWrite.mark hi.sched
  · rw [hw]; exact LastWrite.mark hi.active
  · rw [hw]; exact LastWrite.mark hi.timer
  · by_cases hce : (c, Ev.pass) = (b, e)
    · rw [hce, Stamps.mark_self] at hk
      cases hk
      obtain ⟨h1, h2⟩ := ht.checked.1 (Prod.mk.inj hce).2.symm
      exact ⟨(h1 ▸ hi.sched).congr fun _ _ => Stamps.upto_now hnew,
        (h2 ▸ hi.active).congr fun _ _ => Stamps.upto_now hnew⟩
    · rw [Stamps.mark_of_ne hce] at hk
      have hlt := (h.lt_now _ _ hk).le
      exact ⟨upto_mark_of (hi.pass c k hk).1 hlt hnew, upto_mark_of (hi.pass c k hk).2 hlt hnew⟩
  · by_cases hce : (c, Ev.busy) = (b, e)
    · rw [hce, Stamps.mark_self] at hk
      cases hk
      refine (ht.checked.2 (Prod.mk.inj hce).2.symm).imp (fun h1 => ?_) fun h1 => ?_
      · exact (h1 ▸ hi.sched).congr fun _ _ => Stamps.upto_now hnew
      · exact (h1 ▸ hi.active).congr fun _ _ => Stamps.upto_now hnew
    · rw [Stamps.mark_of_ne hce] at hk
      have hlt := (h.lt_now _ _ hk).le
      exact (hi.busy c k hk).imp (fun h1 => upto_mark_of h1 hlt hnew) fun h1 => upto_mark_of h1 hlt hnew
  · rcases Bool.eq_or_eq_not c b with rfl | rfl
    · rw [hst.ret_of (ht.returns.2 hc)]
      by_cases hbusy : e = .busy
      · rw [if_pos hbusy, hbusy, Stamps.mark_self, if_neg (by nofun)]
      · have hnb : h.time (c, .busy) = none := hl.1 _ (hp.not_busy ht.returns.1)
        rw [if_neg hbusy, Stamps.mark_of_ne (fun eq => hbusy (Prod.mk.inj eq).2.symm), if_pos hnb]
    · have hne : (!b, Ev.busy) ≠ (b, e) := fun eq => by simpa using (Prod.mk.inj eq).1
      rw [hst.ret_other (h₀.ne b), Stamps.mark_of_ne hne]
      refine hi.ret _ ?_
      rw [hst.calls, Function.update_of_ne (h₀.ne b)] at hc
      exact hc

theorem recorded_of_reach (h₀ : Entered s₀ th t qs) {P : Sys n m × Stamps (Bool × Ev) → Bool → Prop}
    {x : Sys n m × Stamps (Bool × Ev)} (hr : (overlap s₀ th).Reach P x) : Recorded s₀ th t qs x.1 x.2 := by
  refine hr.record_invariant (I := fun s h => Recorded s₀ th t qs s h) ?_ fun s b s' h hr hi _ hs => ?_
  · rintro s rfl
    refine ⟨.start, .start, .start, nofun, nofun, fun b hb => ?_⟩
    rw [h₀.calls b] at hb
    cases hq : qs b <;> rw [hq] at hb <;> cases hb
  · exact hi.step (running_of_reach h₀ hr) h₀ hs

/-! ## Returned calls -/

/-- The call was a start that found the timer busy. -/
structure Refused (h : Stamps (Bool × Ev)) (b : Bool) : Prop where
  busy : ∃ k, h.time (b, .busy) = some k
  pass : h.time (b, .pass) = none
  clear : h.time (b, .clear) = none
  settime : h.time (b, .settime) = none
  sched : h.time (b, .sched) = none

/-- The call has cleared the bits at `i`, armed the timerfd at `j` and set `BIT_SCHED` at `k`. -/
structure Armed (h : Stamps (Bool × Ev)) (b : Bool) (q : Request) (us i j k : Nat) : Prop where
  call : q = .restart us ∧ h.time (b, .pass) = none ∨ q = .start us ∧ ∃ p, h.time (b, .pass) = some p ∧ p < i
  clear : h.time (b, .clear) = some i
  settime : h.time (b, .settime) = some j
  sched : h.time (b, .sched) = some k
  lt : i < j
  lt' : j < k
  busy : h.time (b, .busy) = none

/-- The call was a stop that has cleared the bits at `i` and disarmed the timerfd at `j`. -/
structure Disarmed (h : Stamps (Bool × Ev)) (b : Bool) (i j : Nat) : Prop where
  clear : h.time (b, .clear) = some i
  settime : h.time (b, .settime) = some j
  lt : i < j
  pass : h.time (b, .pass) = none
  sched : h.time (b, .sched) = none
  busy : h.time (b, .busy) = none

/-- When the steps of a call that has returned were made. -/
inductive Returned (h : Stamps (Bool × Ev)) (b : Bool) : Request → Prop
  | refused {us : Nat} : Refused h b → Returned h b (.start us)
  | armed {q : Request} {us i j k : Nat} : Armed h b q us i j k → Returned h b q
  | disarmed {i j : Nat} : Disarmed h b i j → Returned h b .stop

theorem Place.returned (hp : Place t q .idle l) (hc : h.Course (fun e => (b, e)) l) : Returned h b q := by
  obtain ⟨h1, ts, h2, h3⟩ := hc
  cases hp with
  | busy us =>
    obtain ⟨k, hk⟩ : ∃ k, h.time (b, .busy) = some k := by
      rcases ts with _ | ⟨k, _ | _⟩ <;> simp at h3
      exact ⟨k, h3⟩
    exact .refused ⟨⟨k, hk⟩, h1 _ (by simp), h1 _ (by simp), h1 _ (by simp), h1 _ (by simp)⟩
  | @armed _ us _ ha =>
    cases ha with
    | restart =>
      rcases ts with _ | ⟨i, _ | ⟨j, _ | ⟨k, _ | ⟨l, _ | _⟩⟩⟩⟩ <;> simp at h3
      simp only [List.pairwise_cons, List.mem_cons, forall_eq_or_imp] at h2
      exact .armed ⟨.inl ⟨rfl, h1 _ (by simp)⟩, h3.1, h3.2.1, h3.2.2.1, h2.1.1, h2.2.1.1, h1 _ (by simp)⟩
    | start =>
      rcases ts with _ | ⟨p, _ | ⟨i, _ | ⟨j, _ | ⟨k, _ | ⟨l, _ | _⟩⟩⟩⟩⟩ <;> simp at h3
      simp only [List.pairwise_cons, List.mem_cons, forall_eq_or_imp] at h2
      exact .armed ⟨.inr ⟨rfl, p, h3.1, h2.1.1⟩, h3.2.1, h3.2.2.1, h3.2.2.2.1, h2.2.1.1, h2.2.2.1.1, h1 _ (by simp)⟩
  | stopped =>
    rcases ts with _ | ⟨i, _ | ⟨j, _ | ⟨l, _ | _⟩⟩⟩ <;> simp at h3
    simp only [List.pairwise_cons, List.mem_cons, forall_eq_or_imp] at h2
    exact .disarmed ⟨h3.1, h3.2.1, h2.1.1, h1 _ (by simp), h1 _ (by simp), h1 _ (by simp)⟩

/-- **The calls clash**: a stop clears the bits before the other call sets `BIT_SCHED`, and disarms after it has armed;
two starts both pass their check; or a start passes its check beside a restart, although a bit was set at the
beginning, or it arms after the restart with another delay. -/
inductive Clash (s₀ : Sys n m) (t : Fin n) (q : Bool → Request) (h : Stamps (Bool × Ev)) : Prop
  | stop (b : Bool) : q b = .stop → h.Before (b, .clear) (!b, .sched) → h.Before (!b, .settime) (b, .settime) →
      Clash s₀ t q h
  | starts : (∀ b, h.time (b, .pass) ≠ none) → Clash s₀ t q h
  | restart (b : Bool) (us us' : Nat) : q b = .start us → q (!b) = .restart us' → h.time (b, .pass) ≠ none →
      ((s₀.obs t).sched = true ∨ (s₀.obs t).active = true ∨ us ≠ us' ∧ h.Before (!b, .settime) (b, .settime)) →
      Clash s₀ t q h

/-! ## The last writes -/

section Writes

variable {v o₀ : Bool} {time : Bool × Ev → Option Nat}

/-- Nothing sets `BIT_ACTIVE`. -/
theorem active_of (hl : LastWrite time wrActive o₀ v) :
    (v = false ∧ ∃ b i, time (b, .clear) = some i) ∨ v = o₀ ∧ ∀ b, time (b, .clear) = none := by
  rcases hl with ⟨⟨b, e⟩, i, h1, h2, -⟩ | ⟨h1, h2⟩
  · cases e <;> simp [wrActive] at h2
    exact .inl ⟨h2, b, i, h1⟩
  · refine .inr ⟨h1, fun b => ?_⟩
    by_contra hn
    obtain ⟨i, hi⟩ := Option.ne_none_iff_exists'.mp hn
    cases h2 _ i hi

theorem sched_of (hl : LastWrite time wrSched o₀ v) :
    (∃ b i, time (b, .sched) = some i ∧ v = true ∧ (∀ b' j, time (b', .clear) = some j → j ≤ i) ∧
      ∀ b' j, time (b', .sched) = some j → j ≤ i) ∨
    (∃ b i, time (b, .clear) = some i ∧ v = false ∧ (∀ b' j, time (b', .clear) = some j → j ≤ i) ∧
      ∀ b' j, time (b', .sched) = some j → j ≤ i) ∨
    v = o₀ ∧ ∀ b, time (b, .clear) = none ∧ time (b, .sched) = none := by
  rcases hl with ⟨⟨b, e⟩, i, h1, h2, h3⟩ | ⟨h1, h2⟩
  · have hc : ∀ b' j, time (b', .clear) = some j → j ≤ i := fun b' j hj => h3 _ j hj nofun
    have hs : ∀ b' j, time (b', .sched) = some j → j ≤ i := fun b' j hj => h3 _ j hj nofun
    cases e <;> simp [wrSched] at h2
    · exact .inr (.inl ⟨b, i, h1, h2, hc, hs⟩)
    · exact .inl ⟨b, i, h1, h2, hc, hs⟩
  · refine .inr (.inr ⟨h1, fun b => ⟨?_, ?_⟩⟩)
    all_goals
      by_contra hn
      obtain ⟨i, hi⟩ := Option.ne_none_iff_exists'.mp hn
      cases h2 _ i hi

theorem timer_of {clock : Nat} {v o₀ : Option Timerfd} (hl : LastWrite time (wrTimer clock qs) o₀ v) :
    (∃ b i, time (b, .settime) = some i ∧ v = some ((qs b).setting clock) ∧
      ∀ b' j, time (b', .settime) = some j → j ≤ i) ∨ v = o₀ ∧ ∀ b, time (b, .settime) = none := by
  rcases hl with ⟨⟨b, e⟩, i, h1, h2, h3⟩ | ⟨h1, h2⟩
  · have hc : ∀ b' j, time (b', .settime) = some j → j ≤ i := fun b' j hj => h3 _ j hj nofun
    cases e <;> simp [wrTimer] at h2
    exact .inl ⟨b, i, h1, h2.symm, hc⟩
  · refine .inr ⟨h1, fun b => ?_⟩
    by_contra hn
    obtain ⟨i, hi⟩ := Option.ne_none_iff_exists'.mp hn
    cases h2 _ i hi

end Writes

section Outcome

variable {us us' i j k i' j' k' : Nat}

theorem Recorded.active_false (hi : Recorded s₀ th t qs s h) (hc : h.time (b, .clear) = some i) :
    (s.obs t).active = false := by
  rcases active_of hi.active with ⟨h1, -⟩ | ⟨-, h2⟩
  · exact h1
  · rw [h2 b] at hc; cases hc

/-- `BIT_SCHED` stays set unless the other call clears it and does not set it again. -/
theorem Recorded.sched_true (hi : Recorded s₀ th t qs s h) (hc : h.time (b, .clear) = some i)
    (hk : h.time (b, .sched) = some k) (hlt : i < k)
    (ho : ∀ i', h.time (!b, .clear) = some i' → i' < k ∨ ∃ k', h.time (!b, .sched) = some k' ∧ i' < k') :
    (s.obs t).sched = true := by
  rcases sched_of hi.sched with ⟨c, x, -, h2, -⟩ | ⟨c, x, h1, -, -, h4⟩ | ⟨-, h2⟩
  · exact h2
  · exfalso
    have hk' := h4 b k hk
    rcases Bool.eq_or_eq_not c b with rfl | rfl
    · rw [hc] at h1; cases h1; omega
    · rcases ho x h1 with hx | ⟨y, hy, hxy⟩
      · omega
      · have := h4 _ y hy; omega
  · rw [(h2 b).1] at hc; cases hc

/-- The timerfd is set as the last call to set it did. -/
theorem Recorded.timer_eq (hi : Recorded s₀ th t qs s h) (hj : h.time (b, .settime) = some j)
    (ho : ∀ j', h.time (!b, .settime) = some j' → j' < j ∨ (qs b).setting s₀.clock = (qs !b).setting s₀.clock) :
    (s.obs t).timer = some ((qs b).setting s₀.clock) := by
  rcases timer_of hi.timer with ⟨c, x, h1, h2, h3⟩ | ⟨-, h2⟩
  · rcases Bool.eq_or_eq_not c b with rfl | rfl
    · exact h2
    · rcases ho x h1 with hx | hx
      · have := h3 b j hj; omega
      · rw [h2, hx]
  · rw [h2 b] at hj; cases hj

/-- A start that has passed its check before any bit was cleared has found the bits clear at the beginning. -/
theorem Recorded.clear_of_pass (hi : Recorded s₀ th t qs s h) (hp : h.time (b, .pass) = some k)
    (hc : ∀ c i, h.time (c, .clear) = some i → k ≤ i) : (s₀.obs t).sched = false ∧ (s₀.obs t).active = false := by
  have hno : ∀ c i, h.upto k (c, .clear) ≠ some i := fun c i hn => by
    obtain ⟨h1, h2⟩ := Option.filter_eq_some_iff.mp hn
    have := hc c i h1
    have := of_decide_eq_true h2
    omega
  obtain ⟨h1, h2⟩ := hi.pass b k hp
  constructor
  · rcases sched_of h1 with ⟨_, _, -, hv, -⟩ | ⟨c, i, hn, -⟩ | ⟨hv, -⟩
    · cases hv
    · exact absurd hn (hno c i)
    · exact hv.symm
  · rcases active_of h2 with ⟨-, c, i, hn⟩ | ⟨hv, -⟩
    · exact absurd hn (hno c i)
    · exact hv.symm

/-- A start that has found the timer busy although neither call sets `BIT_SCHED` has found a bit of the beginning. -/
theorem Recorded.busy_of_refused (hi : Recorded s₀ th t qs s h) (hb : Refused h b) (hn : h.time (!b, .sched) = none) :
    ((s₀.obs t).sched || (s₀.obs t).active) = true := by
  obtain ⟨k, hk⟩ := hb.busy
  have hno : ∀ c i, h.upto k (c, .sched) ≠ some i := fun c i hn' => by
    obtain ⟨h1, -⟩ := Option.filter_eq_some_iff.mp hn'
    rcases Bool.eq_or_eq_not c b with rfl | rfl
    · rw [hb.sched] at h1; cases h1
    · rw [hn] at h1; cases h1
  rw [Bool.or_eq_true]
  refine (hi.busy b k hk).imp (fun h1 => ?_) fun h1 => ?_
  · rcases sched_of h1 with ⟨c, i, hx, -⟩ | ⟨_, _, -, hv, -⟩ | ⟨hv, -⟩
    · exact absurd hx (hno c i)
    · cases hv
    · exact hv.symm
  · rcases active_of h1 with ⟨hv, -⟩ | ⟨hv, -⟩
    · cases hv
    · exact hv.symm

/-! ## The calls together -/

theorem Refused.ret (hb : Refused h b) (hi : Recorded s₀ th t qs s h) (hd : s.calls (th b) = .idle) :
    s.ret (th b) = some (.status (-eBusy)) := by
  obtain ⟨k, hk⟩ := hb.busy
  rw [hi.ret b hd, hk, if_neg (by nofun)]

theorem Recorded.ret_zero (hi : Recorded s₀ th t qs s h) (hd : s.calls (th b) = .idle) (hb : h.time (b, .busy) = none) :
    s.ret (th b) = some (.status 0) := by
  rw [hi.ret b hd, if_pos hb]

/-- What an arming call does alone. -/
theorem Armed.spec (ha : Armed h b q us i j k) (ho : ∀ us, q = .start us → (o.sched || o.active) = false) :
    q.spec clock o = (⟨true, false, some (armedFor clock us)⟩, 0) := by
  rcases ha.call with ⟨rfl, -⟩ | ⟨rfl, -⟩
  · rfl
  · rw [Request.spec, ho us rfl, if_neg Bool.false_ne_true]

theorem Armed.setting (ha : Armed h b q us i j k) : q.setting clock = armedFor clock us := by
  rcases ha.call with ⟨rfl, -⟩ | ⟨rfl, -⟩ <;> rfl

theorem Armed.start_pass (ha : Armed h b (.start us') us i j k) : ∃ p, h.time (b, .pass) = some p ∧ p < i := by
  rcases ha.call with ⟨hc, -⟩ | ⟨-, hp⟩
  · cases hc
  · exact hp

/-- The outcome of two calls that found the timer busy. -/
theorem Recorded.refused_refused (hi : Recorded s₀ th t qs s h) (hd : ∀ c, s.calls (th c) = .idle)
    (hq : qs b = .start us) (hq' : qs (!b) = .start us') (hb : Refused h b) (hb' : Refused h (!b)) :
    SpecOrder s₀ th t qs b s := by
  have hbusy := hi.busy_of_refused hb hb'.sched
  have hobs : s.obs t = s₀.obs t := by
    have hno : ∀ c e, (wrSched (c, e) ≠ none ∨ wrActive (c, e) ≠ none ∨ wrTimer s₀.clock qs (c, e) ≠ none) →
        h.time (c, e) = none := by
      intro c e he
      rcases Bool.eq_or_eq_not c b with rfl | rfl
      · cases e <;> simp [wrSched, wrActive, wrTimer, hb.clear, hb.settime, hb.sched] at he ⊢
      · cases e <;> simp [wrSched, wrActive, wrTimer, hb'.clear, hb'.settime, hb'.sched] at he ⊢
    ext1
    · exact hi.sched.eq_init fun e he => hno e.1 e.2 (.inl he)
    · exact hi.active.eq_init fun e he => hno e.1 e.2 (.inr (.inl he))
    · exact hi.timer.eq_init fun e he => hno e.1 e.2 (.inr (.inr he))
  simp only [SpecOrder, hq, hq', Request.spec, if_pos hbusy]
  exact ⟨hobs, hb.ret hi (hd _), hb'.ret hi (hd _)⟩

/-- A call arms, the other is a start that finds the timer busy. -/
theorem Recorded.armed_refused (hi : Recorded s₀ th t qs s h) (hd : ∀ c, s.calls (th c) = .idle)
    (ha : Armed h b (qs b) us i j k) (hq' : qs (!b) = .start us') (hb' : Refused h (!b)) :
    SpecOrder s₀ th t qs b s := by
  have hspec : (qs b).spec s₀.clock (s₀.obs t) = (⟨true, false, some (armedFor s₀.clock us)⟩, 0) := by
    refine ha.spec fun us₁ hs => ?_
    obtain ⟨p, hp, hlt⟩ := (hs ▸ ha).start_pass
    rw [Bool.or_eq_false_iff]
    refine hi.clear_of_pass hp fun c x hx => ?_
    rcases Bool.eq_or_eq_not c b with rfl | rfl
    · rw [ha.clear] at hx; cases hx; omega
    · rw [hb'.clear] at hx; cases hx
  simp only [SpecOrder, hspec, hq']
  refine ⟨?_, hi.ret_zero (hd _) ha.busy, hb'.ret hi (hd _)⟩
  ext1
  · exact hi.sched_true ha.clear ha.sched (ha.lt.trans ha.lt') fun x hx => by rw [hb'.clear] at hx; cases hx
  · exact hi.active_false ha.clear
  · refine (hi.timer_eq ha.settime fun x hx => ?_).trans (by rw [ha.setting]; rfl)
    rw [hb'.settime] at hx; cases hx

/-- A stop, and a start that finds the timer busy. -/
theorem Recorded.stopped_refused (hi : Recorded s₀ th t qs s h) (hd : ∀ c, s.calls (th c) = .idle)
    (hq : qs b = .stop) (ha : Disarmed h b i j) (hq' : qs (!b) = .start us') (hb' : Refused h (!b)) :
    SpecOrder s₀ th t qs (!b) s := by
  have hbusy := hi.busy_of_refused hb' (by rw [Bool.not_not]; exact ha.sched)
  simp only [SpecOrder, Bool.not_not, hq, hq', Request.spec, if_pos hbusy]
  refine ⟨?_, hb'.ret hi (hd _), hi.ret_zero (hd _) ha.busy⟩
  ext1
  · rcases sched_of hi.sched with ⟨c, x, hx, -⟩ | ⟨_, _, -, hv, -⟩ | ⟨-, hn⟩
    · rcases Bool.eq_or_eq_not c b with rfl | rfl
      · rw [ha.sched] at hx; cases hx
      · rw [hb'.sched] at hx; cases hx
    · exact hv
    · have := ha.clear; rw [(hn b).1] at this; cases this
  · exact hi.active_false ha.clear
  · refine (hi.timer_eq ha.settime fun x hx => ?_).trans (by rw [hq]; rfl)
    rw [hb'.settime] at hx; cases hx

/-- Two stops. -/
theorem Recorded.stopped_stopped (hi : Recorded s₀ th t qs s h) (hd : ∀ c, s.calls (th c) = .idle)
    (hq : qs b = .stop) (ha : Disarmed h b i j) (hq' : qs (!b) = .stop) (ha' : Disarmed h (!b) i' j') :
    SpecOrder s₀ th t qs b s := by
  simp only [SpecOrder, hq, hq', Request.spec]
  refine ⟨?_, hi.ret_zero (hd _) ha.busy, hi.ret_zero (hd _) ha'.busy⟩
  ext1
  · rcases sched_of hi.sched with ⟨c, x, hx, -⟩ | ⟨_, _, -, hv, -⟩ | ⟨-, hn⟩
    · rcases Bool.eq_or_eq_not c b with rfl | rfl
      · rw [ha.sched] at hx; cases hx
      · rw [ha'.sched] at hx; cases hx
    · exact hv
    · have := ha.clear; rw [(hn b).1] at this; cases this
  · exact hi.active_false ha.clear
  · exact (hi.timer_eq ha.settime fun x hx => .inr (by rw [hq, hq'])).trans (by rw [hq]; rfl)

/-- The delays of two equal settings are equal. -/
theorem armedFor_inj (he : armedFor clock us = armedFor clock us') : us = us' := by
  have hns : (toItimerspec us).ns = (toItimerspec us').ns := by
    simpa [armedFor] using he
  simp only [toItimerspec, Itimerspec.ns] at hns
  split at hns <;> split at hns <;> simp only at hns <;> omega

/-- A call arms, the other is a stop: a serial outcome, unless the stop clears before the arming sets `BIT_SCHED` and
disarms after it has armed. -/
theorem Recorded.armed_stopped (hi : Recorded s₀ th t qs s h) (hd : ∀ c, s.calls (th c) = .idle)
    (ha : Armed h b (qs b) us i j k) (hq' : qs (!b) = .stop) (ha' : Disarmed h (!b) i' j') :
    (∃ c, SpecOrder s₀ th t qs c s) ↔ ¬(i' < k ∧ j < j') := by
  have hrb := hi.ret_zero (hd _) ha.busy
  have hrb' := hi.ret_zero (hd _) ha'.busy
  have hact := hi.active_false ha.clear
  have hlate : i' < k → (s.obs t).sched = true := fun hlt =>
    hi.sched_true ha.clear ha.sched (ha.lt.trans ha.lt') fun x hx => by rw [ha'.clear] at hx; cases hx; exact .inl hlt
  have hoff : j < j' → (s.obs t).timer = some disarmed := fun hlt => by
    refine (hi.timer_eq ha'.settime fun x hx => ?_).trans (by rw [hq']; rfl)
    rw [Bool.not_not, ha.settime] at hx
    cases hx
    exact .inl hlt
  constructor
  · rintro ⟨c, hobs, -, -⟩ ⟨h1, h2⟩
    rcases Bool.eq_or_eq_not c b with rfl | rfl
    · have := congrArg Obs.sched hobs
      rw [hlate h1, hq'] at this
      cases this
    · have := congrArg Obs.timer hobs
      rw [hoff h2, hq', Bool.not_not, ha.spec (o := (Request.spec _ _ .stop).1) fun _ _ => rfl] at this
      simp [disarmed, armedFor] at this
  · intro hn
    by_cases hlt : i' < k
    · refine ⟨!b, ?_⟩
      simp only [SpecOrder, Bool.not_not, hq']
      rw [ha.spec (o := (Request.spec _ _ .stop).1) fun _ _ => rfl]
      refine ⟨?_, hrb', hrb⟩
      ext1
      · exact hlate hlt
      · exact hact
      · have hne : j' ≠ j := fun e => by
          have := h.inj _ _ _ (e ▸ ha'.settime) ha.settime
          simp at this
        refine (hi.timer_eq ha.settime fun x hx => ?_).trans (by rw [ha.setting])
        rw [ha'.settime] at hx
        cases hx
        omega
    · have hspec : (qs b).spec s₀.clock (s₀.obs t) = (⟨true, false, some (armedFor s₀.clock us)⟩, 0) := by
        refine ha.spec fun us₁ hs => ?_
        obtain ⟨p, hp, hpi⟩ := (hs ▸ ha).start_pass
        rw [Bool.or_eq_false_iff]
        have := ha.lt
        have := ha.lt'
        refine hi.clear_of_pass hp fun c x hx => ?_
        rcases Bool.eq_or_eq_not c b with rfl | rfl
        · rw [ha.clear] at hx; cases hx; omega
        · rw [ha'.clear] at hx; cases hx; omega
      refine ⟨b, ?_⟩
      simp only [SpecOrder, hspec, hq']
      refine ⟨?_, hrb, hrb'⟩
      ext1
      · have hne : i' ≠ k := fun e => by
          have := h.inj _ _ _ (e ▸ ha'.clear) ha.sched
          simp at this
        rcases sched_of hi.sched with ⟨c, x, hx, -, hcl, -⟩ | ⟨_, _, -, hv, -⟩ | ⟨-, hno⟩
        · have := hcl _ _ ha'.clear
          rcases Bool.eq_or_eq_not c b with rfl | rfl
          · rw [ha.sched] at hx; cases hx; omega
          · rw [ha'.sched] at hx; cases hx
        · exact hv
        · have := ha.clear; rw [(hno b).1] at this; cases this
      · exact hact
      · have := ha.lt'
        have := ha'.lt
        exact hoff (by omega)

/-- Two calls arm: the bits, and what was returned. -/
theorem Recorded.armed_armed (hi : Recorded s₀ th t qs s h) (ha : Armed h b (qs b) us i j k)
    (ha' : Armed h (!b) (qs !b) us' i' j' k') :
    s.obs t = ⟨true, false, some (armedFor s₀.clock (if j < j' then us' else us))⟩ := by
  have hne : j ≠ j' := fun e => by
    have := h.inj _ _ _ (e ▸ ha.settime) ha'.settime
    simp at this
  ext1
  · refine hi.sched_true ha.clear ha.sched (ha.lt.trans ha.lt') fun x hx => .inr ⟨k', ha'.sched, ?_⟩
    rw [ha'.clear] at hx
    cases hx
    exact ha'.lt.trans ha'.lt'
  · exact hi.active_false ha.clear
  · by_cases hlt : j < j'
    · refine (hi.timer_eq ha'.settime fun x hx => ?_).trans (by rw [ha'.setting, if_pos hlt])
      rw [Bool.not_not, ha.settime] at hx
      cases hx
      exact .inl hlt
    · refine (hi.timer_eq ha.settime fun x hx => ?_).trans (by rw [ha.setting, if_neg hlt])
      rw [ha'.settime] at hx
      cases hx
      exact .inl (by omega)

/-- Two restarts. -/
theorem Recorded.restart_restart (hi : Recorded s₀ th t qs s h) (hd : ∀ c, s.calls (th c) = .idle)
    (hq : qs b = .restart us) (ha : Armed h b (qs b) us i j k) (hq' : qs (!b) = .restart us')
    (ha' : Armed h (!b) (qs !b) us' i' j' k') : ∃ c, SpecOrder s₀ th t qs c s := by
  have hobs := hi.armed_armed ha ha'
  have hrb := hi.ret_zero (hd _) ha.busy
  have hrb' := hi.ret_zero (hd _) ha'.busy
  by_cases hlt : j < j'
  · rw [if_pos hlt] at hobs
    refine ⟨b, ?_⟩
    simp only [SpecOrder, hq, hq']
    exact ⟨hobs, hrb, hrb'⟩
  · rw [if_neg hlt] at hobs
    refine ⟨!b, ?_⟩
    simp only [SpecOrder, Bool.not_not, hq, hq']
    exact ⟨hobs, hrb', hrb⟩

/-- A start that arms, beside a restart. -/
theorem Recorded.start_restart (hi : Recorded s₀ th t qs s h) (hd : ∀ c, s.calls (th c) = .idle)
    (hq : qs b = .start us) (ha : Armed h b (qs b) us i j k) (hq' : qs (!b) = .restart us')
    (ha' : Armed h (!b) (qs !b) us' i' j' k') : (∃ c, SpecOrder s₀ th t qs c s) ↔
      ¬((s₀.obs t).sched = true ∨ (s₀.obs t).active = true ∨ us ≠ us' ∧ j' < j) := by
  have hobs := hi.armed_armed ha ha'
  have hrb := hi.ret_zero (hd _) ha.busy
  have hrb' := hi.ret_zero (hd _) ha'.busy
  have hne : j ≠ j' := fun e => by
    have := h.inj _ _ _ (e ▸ ha.settime) ha'.settime
    simp at this
  constructor
  · rintro ⟨c, h1, h2, h3⟩
    rcases Bool.eq_or_eq_not c b with rfl | rfl
    · by_cases hz : ((s₀.obs t).sched || (s₀.obs t).active) = true
      · rw [hq, Request.spec, if_pos hz, hrb] at h2
        cases h2
      · rw [Bool.or_eq_true, not_or] at hz
        rintro (hs | hs | ⟨hu, hlt⟩)
        · exact hz.1 hs
        · exact hz.2 hs
        · rw [hobs, hq', Request.spec, if_neg (by omega)] at h1
          exact hu (armedFor_inj (Option.some.inj (congrArg Obs.timer h1)))
    · rw [Bool.not_not, hq, hq', hrb] at h3
      cases h3
  · intro hn
    rw [not_or, not_or, Bool.not_eq_true, Bool.not_eq_true] at hn
    obtain ⟨hs, hac, hu⟩ := hn
    refine ⟨b, ?_⟩
    simp only [SpecOrder, hq, hq', Request.spec, hs, hac, Bool.or_self, Bool.false_eq_true, if_false]
    refine ⟨?_, hrb, hrb'⟩
    rw [hobs]
    by_cases hlt : j < j'
    · rw [if_pos hlt]
    · rw [if_neg hlt]
      by_cases he : us = us'
      · rw [he]
      · exact absurd ⟨he, by omega⟩ hu

/-- Two starts that both arm. -/
theorem Recorded.start_start (hi : Recorded s₀ th t qs s h) (hd : ∀ c, s.calls (th c) = .idle)
    (hq : qs b = .start us) (ha : Armed h b (qs b) us i j k) (hq' : qs (!b) = .start us')
    (ha' : Armed h (!b) (qs !b) us' i' j' k') : ¬∃ c, SpecOrder s₀ th t qs c s := by
  have hz : ∀ c, s.ret (th c) = some (.status 0) := fun c => by
    rcases Bool.eq_or_eq_not c b with rfl | rfl
    · exact hi.ret_zero (hd _) ha.busy
    · exact hi.ret_zero (hd _) ha'.busy
  have hstart : ∀ c, ∃ us, qs c = .start us := fun c => by
    rcases Bool.eq_or_eq_not c b with rfl | rfl
    · exact ⟨us, hq⟩
    · exact ⟨us', hq'⟩
  rintro ⟨c, -, h2, h3⟩
  obtain ⟨u, hu⟩ := hstart c
  obtain ⟨u', hu'⟩ := hstart !c
  rw [hz, hu] at h2
  rw [hz, hu, hu'] at h3
  by_cases hb : ((s₀.obs t).sched || (s₀.obs t).active) = true
  · rw [Request.spec, if_pos hb] at h2
    cases h2
  · rw [show (Request.start u).spec s₀.clock (s₀.obs t) = (⟨true, false, some (armedFor s₀.clock u)⟩, 0) from
      if_neg hb] at h3
    cases h3

/-! ## Which calls clash -/

theorem Refused.not_clash (hb : Refused h b) (hq : qs b = .start us) : ¬Clash s₀ t qs h := by
  intro hc
  cases hc with
  | stop c hs h1 _ =>
    rcases Bool.eq_or_eq_not c b with rfl | rfl
    · rw [hq] at hs; cases hs
    · obtain ⟨_, _, -, hx, -⟩ := h1
      rw [Bool.not_not, hb.sched] at hx
      cases hx
  | starts hp => exact hp b hb.pass
  | restart c _ _ _ hr hp =>
    rcases Bool.eq_or_eq_not c b with rfl | rfl
    · exact hp hb.pass
    · rw [Bool.not_not, hq] at hr; cases hr

theorem Disarmed.not_clash (ha : Disarmed h b i j) (ha' : Disarmed h (!b) i' j') : ¬Clash s₀ t qs h := by
  have hs : ∀ c, h.time (c, .sched) = none := fun c => by
    rcases Bool.eq_or_eq_not c b with rfl | rfl
    · exact ha.sched
    · exact ha'.sched
  have hp : ∀ c, h.time (c, .pass) = none := fun c => by
    rcases Bool.eq_or_eq_not c b with rfl | rfl
    · exact ha.pass
    · exact ha'.pass
  intro hc
  cases hc with
  | stop c _ h1 _ =>
    obtain ⟨_, _, -, hx, -⟩ := h1
    rw [hs] at hx; cases hx
  | starts hn => exact hn b (hp b)
  | restart c _ _ _ _ hn => exact hn (hp c)

theorem Armed.clash_stop_iff (ha : Armed h b (qs b) us i j k) (hq' : qs (!b) = .stop) (ha' : Disarmed h (!b) i' j') :
    Clash s₀ t qs h ↔ i' < k ∧ j < j' := by
  constructor
  · intro hc
    cases hc with
    | stop c hs h1 h2 =>
      rcases Bool.eq_or_eq_not c b with rfl | rfl
      · rcases ha.call with ⟨hq, -⟩ | ⟨hq, -⟩ <;> rw [hq] at hs <;> cases hs
      · rw [Bool.not_not] at h1 h2
        exact ⟨(Stamps.before_iff ha'.clear ha.sched).mp h1, (Stamps.before_iff ha.settime ha'.settime).mp h2⟩
    | starts hp => exact absurd ha'.pass (hp _)
    | restart c _ _ hs hr _ =>
      rcases Bool.eq_or_eq_not c b with rfl | rfl
      · rw [hq'] at hr; cases hr
      · rw [hq'] at hs; cases hs
  · rintro ⟨h1, h2⟩
    refine .stop (!b) hq' ?_ ?_
    · rw [Bool.not_not]; exact (Stamps.before_iff ha'.clear ha.sched).mpr h1
    · rw [Bool.not_not]; exact (Stamps.before_iff ha.settime ha'.settime).mpr h2

theorem Armed.not_clash (ha : Armed h b (qs b) us i j k) (hq : qs b = .restart us)
    (ha' : Armed h (!b) (qs !b) us' i' j' k') (hq' : qs (!b) = .restart us') : ¬Clash s₀ t qs h := by
  have hr : ∀ c, ∃ us, qs c = .restart us := fun c => by
    rcases Bool.eq_or_eq_not c b with rfl | rfl
    · exact ⟨us, hq⟩
    · exact ⟨us', hq'⟩
  intro hc
  cases hc with
  | stop c hs => obtain ⟨_, hu⟩ := hr c; rw [hu] at hs; cases hs
  | starts hp =>
    rcases ha.call with ⟨-, hn⟩ | ⟨hs, -⟩
    · exact hp b hn
    · rw [hq] at hs; cases hs
  | restart c _ _ hs => obtain ⟨_, hu⟩ := hr c; rw [hu] at hs; cases hs

theorem Armed.clash_start_iff (ha : Armed h b (qs b) us i j k) (hq : qs b = .start us)
    (ha' : Armed h (!b) (qs !b) us' i' j' k') (hq' : qs (!b) = .restart us') :
    Clash s₀ t qs h ↔ ((s₀.obs t).sched = true ∨ (s₀.obs t).active = true ∨ us ≠ us' ∧ j' < j) := by
  constructor
  · intro hc
    cases hc with
    | stop c hs =>
      rcases Bool.eq_or_eq_not c b with rfl | rfl
      · rw [hq] at hs; cases hs
      · rw [hq'] at hs; cases hs
    | starts hp =>
      rcases ha'.call with ⟨-, hn⟩ | ⟨hs, -⟩
      · exact absurd hn (hp _)
      · rw [hq'] at hs; cases hs
    | restart c u u' hs hr _ hx =>
      rcases Bool.eq_or_eq_not c b with rfl | rfl
      · rw [hq] at hs
        rw [hq'] at hr
        cases hs
        cases hr
        exact hx.imp_right fun hx => hx.imp_right fun ⟨h1, h2⟩ =>
          ⟨h1, (Stamps.before_iff ha'.settime ha.settime).mp h2⟩
      · rw [hq'] at hs; cases hs
  · intro hx
    refine .restart b us us' hq hq' ?_ (hx.imp_right fun hx => hx.imp_right fun ⟨h1, h2⟩ =>
      ⟨h1, (Stamps.before_iff ha'.settime ha.settime).mpr h2⟩)
    obtain ⟨p, hp, -⟩ := (hq ▸ ha).start_pass
    rw [hp]
    nofun

theorem Armed.pass_ne_none (ha : Armed h b (qs b) us i j k) (hq : qs b = .start us) : h.time (b, .pass) ≠ none := by
  obtain ⟨p, hp, -⟩ := (hq ▸ ha).start_pass
  rw [hp]
  nofun

/-- One of the calls found the timer busy. -/
theorem Recorded.refused_iff (hi : Recorded s₀ th t qs s h) (hd : ∀ c, s.calls (th c) = .idle)
    (hq : qs b = .start us) (hb : Refused h b) (hr : Returned h (!b) (qs !b)) :
    (∃ c, SpecOrder s₀ th t qs c s) ↔ ¬Clash s₀ t qs h := by
  refine iff_of_true ?_ (hb.not_clash hq)
  generalize hq' : qs (!b) = q at hr
  cases hr with
  | refused hb' => exact ⟨b, hi.refused_refused hd hq hq' hb hb'⟩
  | armed ha => exact ⟨!b, hi.armed_refused hd (hq' ▸ ha) (by rw [Bool.not_not]; exact hq) (by rwa [Bool.not_not])⟩
  | disarmed ha => exact ⟨_, hi.stopped_refused hd hq' ha (by rw [Bool.not_not]; exact hq) (by rwa [Bool.not_not])⟩

/-- One of the calls was a stop, and the other one did not find the timer busy. -/
theorem Recorded.stopped_iff (hi : Recorded s₀ th t qs s h) (hd : ∀ c, s.calls (th c) = .idle)
    (hq : qs (!b) = .stop) (ha' : Disarmed h (!b) i' j') (ha : Armed h b (qs b) us i j k) :
    (∃ c, SpecOrder s₀ th t qs c s) ↔ ¬Clash s₀ t qs h := by
  rw [ha.clash_stop_iff hq ha']
  exact hi.armed_stopped hd ha hq ha'

/-- Both calls armed. -/
theorem Recorded.armed_iff (hi : Recorded s₀ th t qs s h) (hd : ∀ c, s.calls (th c) = .idle)
    (ha : Armed h b (qs b) us i j k) (ha' : Armed h (!b) (qs !b) us' i' j' k') :
    (∃ c, SpecOrder s₀ th t qs c s) ↔ ¬Clash s₀ t qs h := by
  rcases ha.call with ⟨hq, -⟩ | ⟨hq, -⟩ <;> rcases ha'.call with ⟨hq', -⟩ | ⟨hq', -⟩
  · exact iff_of_true (hi.restart_restart hd hq ha hq' ha') (ha.not_clash hq ha' hq')
  · have hnn : Armed h (!!b) (qs !!b) us i j k := by rwa [Bool.not_not]
    rw [ha'.clash_start_iff hq' hnn (by rwa [Bool.not_not])]
    exact hi.start_restart hd hq' ha' (by rwa [Bool.not_not]) hnn
  · rw [ha.clash_start_iff hq ha' hq']
    exact hi.start_restart hd hq ha hq' ha'
  · refine iff_of_false (hi.start_start hd hq ha hq' ha') (not_not.mpr (.starts fun c => ?_))
    rcases Bool.eq_or_eq_not c b with rfl | rfl
    · exact ha.pass_ne_none hq
    · exact ha'.pass_ne_none hq'

/-- **The outcome of two calls is serial exactly when they do not clash.** -/
theorem specOrder_iff (hi : Recorded s₀ th t qs s h) (hd : ∀ c, s.calls (th c) = .idle)
    (hret : ∀ c, Returned h c (qs c)) : (∃ c, SpecOrder s₀ th t qs c s) ↔ ¬Clash s₀ t qs h := by
  have ht := hret true
  have hf := hret false
  generalize hqt : qs true = q at ht
  generalize hqf : qs false = q' at hf
  cases ht with
  | refused hb => exact hi.refused_iff (b := true) hd hqt hb (hret false)
  | armed ha =>
    cases hf with
    | refused hb => exact hi.refused_iff (b := false) hd hqf hb (hret true)
    | armed ha' => exact hi.armed_iff (b := true) hd (hqt ▸ ha) (hqf ▸ ha')
    | disarmed ha' => exact hi.stopped_iff (b := true) hd hqf ha' (hqt ▸ ha)
  | disarmed ha =>
    cases hf with
    | refused hb => exact hi.refused_iff (b := false) hd hqf hb (hret true)
    | armed ha' => exact hi.stopped_iff (b := false) hd hqt ha (hqf ▸ ha')
    | disarmed ha' =>
      exact iff_of_true ⟨true, hi.stopped_stopped (b := true) hd hqt ha hqf ha'⟩ (ha.not_clash (b := true) ha')

end Outcome

/-- **Two overlapping calls have the outcome of a serial order exactly when they do not clash.** -/
theorem overlap_serial_iff (h₀ : Entered s₀ th t qs) {x : Sys n m × Stamps (Bool × Ev)}
    (hr : (overlap s₀ th).Reach (fun _ _ => True) x) (hd : ∀ b, x.1.calls (th b) = .idle) :
    (∃ b, Serially s₀ th t b x.1) ↔ ¬Clash s₀ t qs x.2 := by
  have hret : ∀ c, Returned x.2 c (qs c) := fun c => by
    obtain ⟨l, hp, hc⟩ := (running_of_reach h₀ hr).place c
    exact (hd c ▸ hp).returned hc
  rw [← specOrder_iff (recorded_of_reach h₀ hr) hd hret]
  exact exists_congr fun b => serially_iff h₀

end Runs

/-! ## Two runs -/

/-- Client 0 has installed a timer and entered `q`; client 1 has entered a stop. -/
def besideStop (q : Request) : List (Act 1 2) :=
  let c : Thread 2 := .client 0
  [.call c (.install (some 7) 0), .step c .ok, .step c .ok, .step c (.fd 4), .step c .ok, .step c .ok,
    .call c (q.op 0), .call (.client 1) (.stop 0)]

/-- Client 0 and client 1. -/
def twoClients (b : Bool) : Thread 2 := .client (if b then 0 else 1)

theorem overlap_serial_run : ∃ (s₀ : Sys 1 2) (x : Sys 1 2 × Stamps (Bool × Ev)), (system 1 2).Reach Linear s₀ ∧
    Entered s₀ twoClients 0 (fun b => if b then .start 5 else .stop) ∧ (∀ b, x.1.calls (twoClients b) = .idle) ∧
    x.2.Before (true, .pass) (false, .clear) ∧ x.2.Before (false, .settime) (true, .settime) ∧
    ∃ b, Serially s₀ twoClients 0 b x.1 := by
  obtain ⟨s₀, hr₀, h₀, hx⟩ := Lts.Reach.run (M := system 1 2) (P := Linear) (s := ctxInit 1 2 3)
    (Q := fun s => Entered s twoClients 0 (fun b => if b then .start 5 else .stop) ∧
      ((overlap s twoClients).exec (fun _ _ => True) (s, .empty)
        [true, false, true, false, true, true, true, false]).any
        (fun x => decide ((∀ b, x.1.calls (twoClients b) = .idle) ∧ x.2.Before (true, .pass) (false, .clear) ∧
          x.2.Before (false, .settime) (true, .settime) ∧ ¬x.2.Before (true, .settime) (false, .settime) ∧
          x.2.time (false, .pass) = none)) = true)
    ⟨3, by decide, rfl⟩ (besideStop (.start 5)) (by decide)
  obtain ⟨x, hr, hd, h1, h2, h3, h4⟩ := Lts.Reach.run (M := overlap s₀ twoClients) (P := fun _ _ => True)
    (s := (s₀, .empty))
    (Q := fun x => (∀ b, x.1.calls (twoClients b) = .idle) ∧ x.2.Before (true, .pass) (false, .clear) ∧
      x.2.Before (false, .settime) (true, .settime) ∧ ¬x.2.Before (true, .settime) (false, .settime) ∧
      x.2.time (false, .pass) = none) ⟨rfl, rfl⟩ _ hx
  refine ⟨s₀, x, hr₀, h₀, hd, h1, h2, (overlap_serial_iff h₀ hr hd).mpr fun hc => ?_⟩
  cases hc with
  | stop b hq _ hb =>
    cases b with
    | true => cases hq
    | false => exact h3 hb
  | starts hp => exact hp false h4
  | restart b _ _ hq hq' =>
    cases b with
    | true => cases hq'
    | false => cases hq

/-- **A stop disarms a restarted timer**: the stop clears the bits, the restart runs, and the stop disarms. The timer is
scheduled and nothing will make it fire; no serial order has that outcome. -/
theorem overlap_clash : ∃ (s₀ : Sys 1 2) (x : Sys 1 2 × Stamps (Bool × Ev)), (system 1 2).Reach Linear s₀ ∧
    Entered s₀ twoClients 0 (fun b => if b then .restart 5 else .stop) ∧
    (overlap s₀ twoClients).Reach (fun _ _ => True) x ∧ (∀ b, x.1.calls (twoClients b) = .idle) ∧
    (x.1.obs 0).sched = true ∧ (x.1.obs 0).timer = some disarmed ∧ ¬∃ b, Serially s₀ twoClients 0 b x.1 := by
  obtain ⟨s₀, hr₀, h₀, hx⟩ := Lts.Reach.run (M := system 1 2) (P := Linear) (s := ctxInit 1 2 3)
    (Q := fun s => Entered s twoClients 0 (fun b => if b then .restart 5 else .stop) ∧
      ((overlap s twoClients).exec (fun _ _ => True) (s, .empty) [false, true, true, true, true, false, false]).any
        (fun x => decide ((∀ b, x.1.calls (twoClients b) = .idle) ∧ (x.1.obs 0).sched = true ∧
          (x.1.obs 0).timer = some disarmed)) = true)
    ⟨3, by decide, rfl⟩ (besideStop (.restart 5)) (by decide)
  obtain ⟨x, hr, hd, h1, h2⟩ := Lts.Reach.run (M := overlap s₀ twoClients) (P := fun _ _ => True)
    (s := (s₀, .empty)) (Q := fun x => (∀ b, x.1.calls (twoClients b) = .idle) ∧ (x.1.obs 0).sched = true ∧
      (x.1.obs 0).timer = some disarmed) ⟨rfl, rfl⟩ _ hx
  refine ⟨s₀, x, hr₀, h₀, hr, hd, h1, h2, ?_⟩
  rintro ⟨b, hb⟩
  obtain ⟨hobs, -⟩ := (serially_iff h₀).mp hb
  cases b with
  | true => cases h1.symm.trans (congrArg Obs.sched hobs)
  | false => cases h2.symm.trans (congrArg Obs.timer hobs)

end Gabs.Timer.Posix
