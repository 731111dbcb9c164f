import Gabs.Timer.Manual.Steps

/-!
# The manual timer: the invariant of the pool

- `running`: the call of `gabs_timer_manual_advance` on the stack;
- `Sane`: active timers are installed and not overdue, their sequence numbers are those of past starts and all
  different, and at most one `gabs_timer_manual_advance` is on the stack, at the bottom;
- `sane_of_reach`: that is so in every reachable state.
-/

namespace Gabs.Timer.Manual

open Gabs.Lib

variable {n : Nat}

/-! ## The stack -/

/-- The call of `gabs_timer_manual_advance` on the stack: its end, and the callbacks it has counted. -/
def running : List (Frame n) → Option (Nat × Nat)
  | [] => none
  | .callback _ :: fs => running fs
  | .advance e k :: _ => some (e, k)

/-- `gabs_timer_manual_advance` is only at the bottom of the stack. -/
def Flat : List (Frame n) → Prop
  | [] => True
  | .callback _ :: fs => Flat fs
  | .advance _ _ :: fs => fs = []

@[simp] theorem running_callback {t : Fin n} {fs : List (Frame n)} : running (.callback t :: fs) = running fs := rfl

@[simp] theorem running_advance {e k : Nat} {fs : List (Frame n)} : running (.advance e k :: fs) = some (e, k) := rfl

/-! ## What the operations do to the timers -/

section Timers

variable {c : Ctx n} {t i : Fin n} {us : Nat}

/-- A slot other than the one that is written. -/
theorem put_timers_of_ne {x : Slot} (h : i ≠ t) : (c.put t x).timers i = c.timers i := Function.update_of_ne h ..

theorem put_timers_self {x : Slot} : (c.put t x).timers t = x := Function.update_self ..

theorem disarm_timers_of_ne (h : i ≠ t) : (c.disarm t).timers i = c.timers i := put_timers_of_ne h

theorem disarm_active : ((c.disarm t).timers t).active = false := by rw [Ctx.disarm, put_timers_self]

theorem disarm_used : ((c.disarm t).timers i).used = (c.timers i).used := by
  rcases eq_or_ne i t with rfl | hn
  · rw [Ctx.disarm, put_timers_self]
  · rw [disarm_timers_of_ne hn]

@[simp] theorem disarm_nowUs : (c.disarm t).nowUs = c.nowUs := rfl

@[simp] theorem disarm_nextSeq : (c.disarm t).nextSeq = c.nextSeq := rfl

theorem arm_timers_of_ne (h : i ≠ t) : (c.arm t us).timers i = c.timers i := put_timers_of_ne h

theorem arm_timers_self : (c.arm t us).timers t =
    { c.timers t with active := true, expiryUs := wrap (c.nowUs + us), seq := c.nextSeq } := put_timers_self

@[simp] theorem arm_nowUs : (c.arm t us).nowUs = c.nowUs := rfl

theorem arm_nextSeq : (c.arm t us).nextSeq = wrap (c.nextSeq + 1) := rfl

end Timers

theorem timer_of_arms {c : Ctx n} {op : Op n} {t : Fin n} {us : Nat} (h : op.arms c = some (t, us)) :
    op.timer = some t := by
  unfold Op.arms at h
  split at h
  · split at h <;> cases h; rfl
  · cases h; rfl
  · cases h

/-! ## The invariant -/

/-- **The invariant of the pool.** -/
structure Sane (s : Sys n) : Prop where
  used : ∀ t, (s.ctx.timers t).active = true → (s.ctx.timers t).used = true
  ahead : ∀ t, (s.ctx.timers t).active = true → s.ctx.nowUs ≤ (s.ctx.timers t).expiryUs
  seq : ∀ t, (s.ctx.timers t).active = true → (s.ctx.timers t).seq < s.ctx.nextSeq
  distinct : ∀ t u, (s.ctx.timers t).active = true → (s.ctx.timers u).active = true →
    (s.ctx.timers t).seq = (s.ctx.timers u).seq → t = u
  flat : Flat s.frames
  inTime : ∀ e k, running s.frames = some (e, k) → s.ctx.nowUs ≤ e

variable {s s' : Sys n}

theorem Sane.init : Sane (boot n) := by
  refine ⟨?_, ?_, ?_, ?_, trivial, nofun⟩ <;> simp [boot, ctxInit, Slot.zero]

/-- Fewer timers are active, and nothing else about them changes. -/
theorem Sane.fewer (hi : Sane s) (ht : ∀ t, (s'.ctx.timers t).active = true →
      s'.ctx.timers t = s.ctx.timers t) (hn : s'.ctx.nowUs = s.ctx.nowUs) (hq : s'.ctx.nextSeq = s.ctx.nextSeq)
    (hf : Flat s'.frames) (hr : ∀ e k, running s'.frames = some (e, k) → s'.ctx.nowUs ≤ e) : Sane s' := by
  refine ⟨fun t h => ?_, fun t h => ?_, fun t h => ?_, fun t u h h' he => ?_, hf, hr⟩
  · rw [ht t h]; exact hi.used t (ht t h ▸ h)
  · rw [hn, ht t h]; exact hi.ahead t (ht t h ▸ h)
  · rw [hq, ht t h]; exact hi.seq t (ht t h ▸ h)
  · rw [ht t h, ht u h'] at he; exact hi.distinct t u (ht t h ▸ h) (ht u h' ▸ h') he

/-- A slot is written with a timer that is not active. -/
theorem active_of_put {c : Ctx n} {t i : Fin n} {x : Slot} (hx : x.active = false)
    (h : ((c.put t x).timers i).active = true) : (c.put t x).timers i = c.timers i := by
  rcases eq_or_ne i t with rfl | hn
  · rw [put_timers_self, hx] at h; cases h
  · exact put_timers_of_ne hn

/-- A timer that is not due although it is active expires after the end. -/
theorem lt_of_not_due {c : Ctx n} {t : Fin n} {e : Nat} (h : c.due e t = false) (hu : (c.timers t).used = true)
    (ha : (c.timers t).active = true) : e < (c.timers t).expiryUs := by
  by_contra hle
  rw [due_iff.mpr ⟨hu, ha, not_lt.mp hle⟩] at h
  cases h

/-- The timer that fires next expires first. -/
theorem nextExpired_first {c : Ctx n} {t u : Fin n} {e : Nat} (h : nextExpired c e = some t)
    (hu : (c.timers u).used = true) (ha : (c.timers u).active = true) :
    (c.timers t).expiryUs ≤ (c.timers u).expiryUs := by
  obtain ⟨h1, h2⟩ := nextExpired_some h
  cases hd : c.due e u with
  | true =>
    rcases Prod.Lex.toLex_le_toLex.mp (h2 u hd) with hlt | ⟨heq, -⟩
    · exact hlt.le
    · exact heq.le
  | false => exact (due_iff.mp h1).2.2.trans (lt_of_not_due hd hu ha).le

theorem Sane.lt_of_not_due (hi : Sane s) {t : Fin n} {e : Nat} (h : s.ctx.due e t = false)
    (ha : (s.ctx.timers t).active = true) : e < (s.ctx.timers t).expiryUs :=
  Manual.lt_of_not_due h (hi.used t ha) ha

theorem Sane.first (hi : Sane s) {t u : Fin n} {e : Nat} (h : nextExpired s.ctx e = some t)
    (ha : (s.ctx.timers u).active = true) : (s.ctx.timers t).expiryUs ≤ (s.ctx.timers u).expiryUs :=
  nextExpired_first h (hi.used u ha) ha

/-- The timer that fires next comes before all others. -/
theorem Sane.key_lt (hi : Sane s) {t u : Fin n} {e : Nat} (h : nextExpired s.ctx e = some t)
    (ha : (s.ctx.timers u).active = true) (hn : u ≠ t) : s.ctx.key t < s.ctx.key u := by
  obtain ⟨h1, h2⟩ := nextExpired_some h
  have hat := (due_iff.mp h1).2.1
  cases hd : s.ctx.due e u with
  | true =>
    refine lt_of_le_of_ne (h2 u hd) fun he => hn ?_
    exact (hi.distinct t u hat ha (congrArg (fun p => (ofLex p).2) he)).symm
  | false => exact key_lt_iff.mpr (.inl (lt_of_le_of_lt (due_iff.mp h1).2.2 (hi.lt_of_not_due hd ha)))

/-- One step. -/
theorem Sane.step {a : Act n} (hi : Sane s) (hu : Usable s a) (h : Move s a s') : Sane s' := by
  cases h with
  | install => exact hi.fewer (fun t h => active_of_put rfl h) rfl rfl hi.flat hi.inTime
  | uninstall => exact hi.fewer (fun t h => active_of_put rfl h) rfl rfl hi.flat hi.inTime
  | stop => exact hi.fewer (fun t h => active_of_put rfl h) rfl rfl hi.flat hi.inTime
  | quiet => exact hi.fewer (fun _ _ => rfl) rfl rfl hi.flat hi.inTime
  | fire => exact hi.fewer (fun t h => active_of_put rfl h) rfl rfl hi.flat hi.inTime
  | @arm op t us hc ha =>
    obtain ⟨h1, h2⟩ := hu.2 (t, us) ha
    have hut : (s.ctx.timers t).used = true := hu.1 t (timer_of_arms ha)
    have hself : (s.ctx.arm t us).timers t =
        { s.ctx.timers t with active := true, expiryUs := s.ctx.nowUs + us, seq := s.ctx.nextSeq } := by
      rw [arm_timers_self, wrap_of_lt h1]
    have hseq : (s.ctx.arm t us).nextSeq = s.ctx.nextSeq + 1 := by rw [arm_nextSeq, wrap_of_lt h2]
    refine ⟨fun u h => ?_, fun u h => ?_, fun u h => ?_, fun u v h h' he => ?_, hi.flat, hi.inTime⟩
    · rcases eq_or_ne u t with rfl | hn
      · rw [hself]; exact hut
      · rw [arm_timers_of_ne hn] at h ⊢; exact hi.used u h
    · rcases eq_or_ne u t with rfl | hn
      · rw [hself]; exact Nat.le_add_right ..
      · rw [arm_timers_of_ne hn] at h ⊢; exact hi.ahead u h
    · rw [hseq]
      rcases eq_or_ne u t with rfl | hn
      · rw [hself]; exact Nat.lt_succ_self _
      · rw [arm_timers_of_ne hn] at h ⊢; exact Nat.lt_succ_of_lt (hi.seq u h)
    · rcases eq_or_ne u t with rfl | hn <;> rcases eq_or_ne v u with rfl | hn'
      · rfl
      · rw [hself, arm_timers_of_ne hn'] at he
        rw [arm_timers_of_ne hn'] at h'
        exact absurd (he ▸ hi.seq v h') (lt_irrefl _)
      · rfl
      · rw [arm_timers_of_ne hn] at h he
        rcases eq_or_ne v t with rfl | hvt
        · rw [hself] at he
          exact absurd (he ▸ hi.seq u h) (lt_irrefl _)
        · rw [arm_timers_of_ne hvt] at h' he
          exact hi.distinct u v h h' he
  | @advance us hc =>
    refine hi.fewer (fun _ _ => rfl) rfl rfl hu.1 fun e k he => ?_
    cases he
    rw [wrap_of_lt hu.2]
    exact Nat.le_add_right ..
  | retLoop hf =>
    have hflat := hi.flat
    rw [hf] at hflat
    exact hi.fewer (fun _ _ => rfl) rfl rfl hflat fun e k he => hi.inTime _ _ (by rw [hf]; cases he; rfl)
  | retFire hf =>
    have hflat := hi.flat
    rw [hf] at hflat
    exact hi.fewer (fun _ _ => rfl) rfl rfl hflat fun e k he => hi.inTime e k (by rw [hf]; exact he)
  | @alarm t e k fs hf hne =>
    have hold : ∀ u, (((s.ctx.setNow (s.ctx.timers t).expiryUs).disarm t).timers u).active = true →
        ((s.ctx.setNow (s.ctx.timers t).expiryUs).disarm t).timers u = s.ctx.timers u := fun u h => active_of_put rfl h
    refine ⟨fun u h => ?_, fun u h => ?_, fun u h => ?_, fun u v h h' he => ?_, hi.flat, fun e' k' he => ?_⟩
    · exact (hold u h) ▸ hi.used u (hold u h ▸ h)
    · exact (hold u h) ▸ hi.first hne (hold u h ▸ h)
    · exact (hold u h) ▸ hi.seq u (hold u h ▸ h)
    · exact hi.distinct u v (hold u h ▸ h) (hold v h' ▸ h') (hold u h ▸ hold v h' ▸ he)
    · have hr : running s.frames = some (e', k') := he
      rw [hf] at hr
      cases hr
      exact (due_iff.mp (nextExpired_some hne).1).2.2
  | @done e k fs hf hne =>
    have hfs : fs = [] := by have := hi.flat; rwa [hf] at this
    subst hfs
    exact ⟨hi.used, fun u h => (hi.lt_of_not_due (nextExpired_none hne u) h).le, hi.seq, hi.distinct, trivial, nofun⟩

/-- **The pool is sane in every reachable state.** -/
theorem sane_of_reach (hr : (system n).Reach Usable s) : Sane s := by
  refine hr.invariant ?_ fun s a s' _ hi hu h => hi.step hu (step_move h)
  rintro s rfl
  exact .init

end Gabs.Timer.Manual
