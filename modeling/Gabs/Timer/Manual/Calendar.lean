import Gabs.Lib.Agenda
import Gabs.Timer.Manual.Sane

/-!
# The manual timer is a calendar

- `Calendar`: a clock, an agenda of the timers that are to fire, and what each installed timer calls. There are no
  flags, sequence numbers or searches in it, and no sum wraps;
- `Calendar.step`: a timer is put on the agenda or taken off it; a call of `gabs_timer_manual_advance` takes what is
  first on the agenda, until nothing is due;
- `Sys.calendar`: the calendar that a pool of slots stands for;
- `calendar_exact`: each action does to the pool what it does to its calendar, and returns the same.
-/

namespace Gabs.Timer.Manual

open Gabs.Lib Gabs.Lib.Agenda

variable {n : Nat}

/-! ## Calendars -/

/-- A calendar: `timers i` is the callback of an installed timer and its argument. -/
@[ext] structure Calendar (n : Nat) where
  nowUs : Nat
  agenda : List (Nat × Fin n)
  timers : Fin n → Option (Option Nat × Nat)
  frames : List (Frame n)
  ret : Ret n

namespace Calendar

/-- Time 0, and nothing to do. -/
def empty (n : Nat) : Calendar n := ⟨0, [], fun _ => none, [], .status 0⟩

def returns (c : Calendar n) (v : Ret n) : Calendar n := { c with ret := v }

/-- Timer `t` is on the agenda. -/
def isSet (c : Calendar n) (t : Fin n) : Bool := c.agenda.any (·.2 = t)

/-- Timer `t` is taken off the agenda. -/
def unset (c : Calendar n) (t : Fin n) : Calendar n := { c with agenda := cancel t c.agenda }

/-- Timer `t` is put on the agenda, after what is due at the same time. -/
def set (c : Calendar n) (t : Fin n) (us : Nat) : Calendar n :=
  { c with agenda := schedule (c.nowUs + us) t (cancel t c.agenda) }

/-- Timer `t` is taken off the agenda, and its callback begins. -/
def begins (c : Calendar n) (t : Fin n) : Option (Calendar n) :=
  ((c.timers t).bind Prod.fst).map fun _ => { c.unset t with frames := .callback t :: c.frames }

/-- Code of the client runs. -/
def inClient (c : Calendar n) : Bool :=
  match c.frames with
  | .advance _ _ :: _ => false
  | _ => true

/-- A call. -/
def call (c : Calendar n) : Op n → Option (Calendar n)
  | .install cb arg =>
    match (List.finRange n).find? fun i => (c.timers i).isNone with
    | some i => some ({ c with timers := Function.update c.timers i (some (cb, arg)) }.returns (.timer (some i)))
    | none => some (c.returns (.timer none))
  | .uninstall t => some ({ c.unset t with timers := Function.update c.timers t none }.returns (.status 0))
  | .start t us => some (if c.isSet t then c.returns (.status (-eBusy)) else (c.set t us).returns (.status 0))
  | .restart t us => some ((c.set t us).returns (.status 0))
  | .stop t => some ((c.unset t).returns (.status 0))
  | .active t => some (c.returns (.active (c.isSet t)))
  | .now => some (c.returns (.now c.nowUs))
  | .fire t => if c.isSet t then c.begins t else some (c.returns (.status (-eInval)))

/-- The loop of `gabs_timer_manual_advance`: what is due first happens, or the call returns. -/
def advance (c : Calendar n) (endUs count : Nat) (fs : List (Frame n)) : Option (Calendar n) :=
  match Agenda.due endUs c.agenda with
  | some (d, t) => { c with nowUs := d }.begins t
  | none => some ({ c with nowUs := endUs, frames := fs }.returns (.count count))

/-- **One step of the calendar.** -/
def step (c : Calendar n) : Act n → Option (Calendar n)
  | .call op => if c.inClient then c.call op else none
  | .advance us => if c.inClient then some { c with frames := .advance (c.nowUs + us) 0 :: c.frames } else none
  | .ret =>
    match c.frames with
    | .callback _ :: .advance e k :: fs => some { c with frames := .advance e (k + 1) :: fs }
    | .callback _ :: fs => some ({ c with frames := fs }.returns (.status 0))
    | _ => none
  | .loop =>
    match c.frames with
    | .advance e k :: fs => c.advance e k fs
    | _ => none

/-- Handles are valid, and `gabs_timer_manual_advance` is not called from a callback. -/
def Usable (c : Calendar n) : Act n → Prop
  | .call op => ∀ t ∈ op.timer, (c.timers t).isSome = true
  | .advance _ => c.frames = []
  | _ => True

end Calendar

/-- A calendar and its users. -/
def calendars (n : Nat) : Lts (Calendar n) (Act n) := ⟨(· = .empty n), Calendar.step⟩

/-! ## The calendar of a pool -/

/-- What a slot in use calls. -/
def Slot.entry (t : Slot) : Option (Option Nat × Nat) := if t.used then some (t.cb, t.userArg) else none

/-- The timers that are active. -/
def Ctx.pending (c : Ctx n) : List (Fin n) := (List.finRange n).filter fun i => (c.timers i).active

/-- **The calendar that the pool stands for.** -/
def Sys.calendar (s : Sys n) : Calendar n :=
  ⟨s.ctx.nowUs, listing s.ctx.key s.ctx.pending, fun i => (s.ctx.timers i).entry, s.frames, s.ret⟩

theorem entry_isNone (x : Slot) : x.entry.isNone = !x.used := by
  rw [Slot.entry]
  cases x.used <;> rfl

/-- The list `l` is the agenda of the active timers of `c`. -/
def Ctx.Lists (c : Ctx n) (l : List (Nat × Fin n)) : Prop := Queued c.key (fun i => (c.timers i).active = true) l

variable {s s' : Sys n} {c c' : Ctx n} {t : Fin n} {us : Nat} {l : List (Nat × Fin n)}

theorem mem_pending {i : Fin n} : i ∈ c.pending ↔ (c.timers i).active = true := by simp [Ctx.pending]

theorem Sane.lists (hi : Sane s) : s.ctx.Lists s.calendar.agenda := by
  have hnd : s.ctx.pending.Nodup := (List.nodup_finRange n).filter _
  refine (queued_listing hnd fun i hi' j hj he => ?_).congr (fun i => mem_pending.symm) fun _ _ => rfl
  exact hi.distinct i j (mem_pending.mp hi') (mem_pending.mp hj) (congrArg (fun p => (ofLex p).2) he)

/-- What lists the active timers is the agenda. -/
theorem Ctx.Lists.eq (hl : c.Lists l) : listing c.key c.pending = l :=
  Queued.listing_eq hl ((List.nodup_finRange n).filter _) fun _ => mem_pending

/-- The active timers are as before. -/
theorem Ctx.Lists.congr (hl : c.Lists l) (ha : ∀ i, (c'.timers i).active = (c.timers i).active)
    (ht : ∀ i, (c.timers i).active = true → c'.timers i = c.timers i) : c'.Lists l := by
  refine Queued.congr hl (fun i => by rw [ha]) fun i hi => ?_
  rw [Ctx.key, Ctx.key, ht i hi]

/-- **Timer `t` is no longer active**, whatever else is written to its slot. -/
theorem Ctx.Lists.unset (hl : c.Lists l) {x : Slot} (hx : x.active = false) : (c.put t x).Lists (cancel t l) := by
  refine hl.cancel.congr (fun i => ?_) fun i hi => ?_
  · rcases eq_or_ne i t with rfl | hne
    · simp [hx]
    · simp [hne]
  · rw [Ctx.key, Ctx.key, put_timers_of_ne hi.2]

/-- **Timer `t` is armed**: its ticket is the next one. -/
theorem Ctx.Lists.set (hl : c.Lists l) (hseq : ∀ i, (c.timers i).active = true → (c.timers i).seq < c.nextSeq)
    (hsum : c.nowUs + us < 2 ^ 64) : (c.arm t us).Lists (schedule (c.nowUs + us) t (cancel t l)) := by
  have hq : Queued (c.arm t us).key _ (schedule (c.nowUs + us) t (cancel t l)) :=
    (hl.cancel (x := t)).schedule (k := c.nextSeq) (fun h => h.2 rfl) (fun i hne => ?_) ?_ fun i hi => hseq i hi.1
  · refine hq.congr (fun i => ?_) fun _ _ => rfl
    rcases eq_or_ne i t with rfl | hne
    · simp [arm_timers_self]
    · simp [arm_timers_of_ne hne, hne]
  · rw [Ctx.key, Ctx.key, arm_timers_of_ne hne]
  · rw [Ctx.key, arm_timers_self, wrap_of_lt hsum]

theorem Ctx.Lists.isSet_eq (hl : s.ctx.Lists s.calendar.agenda) (t : Fin n) :
    s.calendar.isSet t = (s.ctx.timers t).active := by
  rw [Bool.eq_iff_iff]
  exact Queued.any_iff hl t

/-- Only the entry of slot `t` changes. -/
theorem entry_put (x : Slot) : (fun i => ((c.put t x).timers i).entry) =
    Function.update (fun i => (c.timers i).entry) t x.entry := by
  funext i
  rcases eq_or_ne i t with rfl | hne
  · rw [put_timers_self, Function.update_self]
  · rw [put_timers_of_ne hne, Function.update_of_ne hne]

theorem entry_put_same {x : Slot} (h : x.entry = (c.timers t).entry) :
    (fun i => ((c.put t x).timers i).entry) = fun i => (c.timers i).entry := by
  rw [entry_put, h]
  exact Function.update_eq_self ..

/-! ## The actions -/

/-- A callback begins. -/
theorem timerFire_calendar (hl : s.ctx.Lists s.calendar.agenda) (hu : (s.ctx.timers t).used = true) :
    (timerFire s t).map Sys.calendar = s.calendar.begins t := by
  have hentry : s.calendar.timers t = some ((s.ctx.timers t).cb, (s.ctx.timers t).userArg) := if_pos hu
  rw [timerFire, Calendar.begins, hentry, Option.bind_some]
  cases hcb : (s.ctx.timers t).cb with
  | none => rfl
  | some f =>
    refine congrArg some (Calendar.ext rfl ?_ (entry_put_same rfl) rfl rfl)
    exact (hl.unset rfl).eq

/-- A timer is armed. -/
theorem arm_calendar (hi : Sane s) (hsum : s.ctx.nowUs + us < 2 ^ 64) {v : Ret n} :
    Sys.calendar { s with ctx := s.ctx.arm t us, ret := v } = (s.calendar.set t us).returns v :=
  Calendar.ext rfl (hi.lists.set hi.seq hsum).eq (entry_put_same rfl) rfl rfl

/-- **The calls.** -/
theorem callStep_calendar (hi : Sane s) {op : Op n} (hu : Usable s (.call op)) :
    (callStep s op).map Sys.calendar = s.calendar.call op := by
  have hl := hi.lists
  cases op with
  | install cb arg =>
    have hfind : ((List.finRange n).find? fun i => (s.calendar.timers i).isNone) =
        (List.finRange n).find? fun i => !(s.ctx.timers i).used := by
      congr 1
      funext i
      exact entry_isNone _
    simp only [callStep, install, Calendar.call, hfind]
    cases hf : (List.finRange n).find? fun i => !(s.ctx.timers i).used with
    | none => rfl
    | some i =>
      have hfree : (s.ctx.timers i).used = false := by simpa using List.find?_some hf
      have hoff : (s.ctx.timers i).active = false := by
        by_contra ha
        rw [hi.used i (by simpa using ha)] at hfree
        cases hfree
      refine congrArg some (Calendar.ext rfl ?_ (entry_put _) rfl rfl)
      -- The slot that is taken has no appointment.
      refine (hl.unset rfl).eq.trans (cancel_of_notMem fun a ha he => ?_)
      have hact := ((Queued.mem hl a).mp ha).1
      rw [he, hoff] at hact
      cases hact
  | uninstall t => exact congrArg some (Calendar.ext rfl (hl.unset rfl).eq (entry_put _) rfl rfl)
  | start t us =>
    simp only [callStep, start, Calendar.call, hl.isSet_eq]
    cases ha : (s.ctx.timers t).active with
    | true => rfl
    | false =>
      have hsum := (hu.2 (t, us) (by simp [Op.arms, ha])).1
      exact congrArg some (arm_calendar hi hsum)
  | restart t us => exact congrArg some (arm_calendar hi (hu.2 (t, us) rfl).1)
  | stop t => exact congrArg some (Calendar.ext rfl (hl.unset rfl).eq (entry_put_same rfl) rfl rfl)
  | active t => exact congrArg some (Calendar.ext rfl rfl rfl rfl (congrArg Ret.active (hl.isSet_eq t).symm))
  | now => rfl
  | fire t =>
    simp only [callStep, Calendar.call, hl.isSet_eq]
    cases ha : (s.ctx.timers t).active with
    | true => exact timerFire_calendar hl (hi.used t ha)
    | false => rfl

/-- **The search of `next_expired`** finds what is due first. -/
theorem Ctx.Lists.next (hl : c.Lists l) (hu : ∀ i, (c.timers i).active = true → (c.timers i).used = true) (e : Nat) :
    nextExpired c e = (Agenda.due e l).map Prod.snd := by
  cases hd : Agenda.due e l with
  | none =>
    cases hne : nextExpired c e with
    | none => rfl
    | some t =>
      obtain ⟨-, hat, hle⟩ := due_iff.mp (nextExpired_some hne).1
      exact absurd hle (not_le.mpr (Queued.due_none hl hd t hat))
  | some a =>
    obtain ⟨d, u⟩ := a
    obtain ⟨hau, hexp, hle, hleast⟩ := Queued.due_some hl hd
    have hdue : c.due e u = true := due_iff.mpr ⟨hu u hau, hau, hexp.trans_le hle⟩
    cases hne : nextExpired c e with
    | none =>
      rw [nextExpired_none hne u] at hdue
      cases hdue
    | some t =>
      obtain ⟨ht, hmin⟩ := nextExpired_some hne
      have htu : t = u := by
        by_contra hn
        exact absurd (hmin u hdue) (not_le.mpr (hleast t (due_iff.mp ht).2.1 hn))
      rw [htu]
      rfl

/-- **The loop** of `gabs_timer_manual_advance`. -/
theorem advanceLoop_calendar (hi : Sane s) (e k : Nat) (fs : List (Frame n)) :
    (advanceLoop s e k fs).map Sys.calendar = s.calendar.advance e k fs := by
  have hl := hi.lists
  rw [advanceLoop, Calendar.advance, hl.next hi.used]
  cases hd : Agenda.due e s.calendar.agenda with
  | none => rfl
  | some a =>
    obtain ⟨d, t⟩ := a
    obtain ⟨hat, hexp, -⟩ := Queued.due_some hl hd
    have hclock : (s.ctx.timers t).expiryUs = d := hexp
    simp only [Option.map_some, hclock]
    exact timerFire_calendar (s := { s with ctx := s.ctx.setNow d }) hl (hi.used t hat)

/-- **Each action does to the pool what it does to its calendar.** -/
theorem step_calendar (hi : Sane s) {a : Act n} (hu : Usable s a) :
    (step s a).map Sys.calendar = s.calendar.step a := by
  have hframes : s.calendar.frames = s.frames := rfl
  have hclient : s.calendar.inClient = s.inClient := rfl
  cases a with
  | call op =>
    rw [step, Calendar.step, hclient]
    split
    · exact callStep_calendar hi hu
    · rfl
  | advance us =>
    rw [step, Calendar.step, hclient]
    split
    · rw [wrap_of_lt hu.2]
      rfl
    · rfl
  | ret =>
    simp only [step, Calendar.step, hframes]
    rcases s.frames with _ | ⟨_ | t, fs⟩
    · rfl
    · rfl
    · rcases fs with _ | ⟨⟨e, k⟩ | u, fs⟩
      · rfl
      · rfl
      · rfl
  | loop =>
    simp only [step, Calendar.step, hframes]
    rcases s.frames with _ | ⟨⟨e, k⟩ | t, fs⟩
    · rfl
    · exact advanceLoop_calendar hi e k fs
    · rfl

/-! ## Whole runs -/

theorem boot_calendar : (boot n).calendar = .empty n := by
  refine Calendar.ext rfl ?_ rfl rfl rfl
  have hnone : (boot n).ctx.pending = [] := by simp [Ctx.pending, boot, ctxInit, Slot.zero]
  exact congrArg (listing _) hnone

/-- What is promised of an action is promised of it on the calendar. -/
theorem Usable.calendar {a : Act n} (hu : Usable s a) : s.calendar.Usable a := by
  cases a with
  | call op =>
    intro t ht
    have hused : (s.ctx.timers t).used = true := hu.1 t ht
    simp [Sys.calendar, Slot.entry, hused]
  | advance us => exact hu.1
  | ret => trivial
  | loop => trivial

/-- **The manual timer is a calendar.** -/
theorem calendar_exact (hr : (system n).Reach Usable s) : (calendars n).Reach Calendar.Usable s.calendar ∧
    ∀ a, Usable s a → (step s a).map Sys.calendar = s.calendar.step a := by
  refine ⟨?_, fun a hu => step_calendar (sane_of_reach hr) hu⟩
  induction hr with
  | init h => exact .init (h ▸ boot_calendar)
  | @step s s' a hr hu hst ih =>
    have hstep := step_calendar (sane_of_reach hr) hu
    have hst' : Manual.step s a = some s' := hst
    rw [hst'] at hstep
    exact ih.step hu.calendar hstep.symm

/-- Two timers for the same time; timer 1 has been started first. -/
def twoBooked : List (Act 2) :=
  [.call (.install (some 1) 0), .call (.install (some 2) 0), .call (.start 1 5), .call (.start 0 5), .advance 10]

theorem calendar_exact_run : ∃ s : Sys 2, s.calendar.agenda = [(5, 1), (5, 0)] ∧
    ((step s .loop).map Sys.calendar).map Calendar.agenda = some [(5, 0)] := by
  obtain ⟨s, hr, hag, hst⟩ := Lts.Reach.run (M := system 2) (P := Usable) (s := boot 2)
    (Q := fun s => s.calendar.agenda = [(5, 1), (5, 0)] ∧ (s.calendar.step .loop).map Calendar.agenda = some [(5, 0)])
    rfl twoBooked (by decide)
  refine ⟨s, hag, ?_⟩
  rw [(calendar_exact hr).2 .loop trivial]
  exact hst

end Gabs.Timer.Manual
