import Gabs.Timer.Posix.Signal
import Gabs.Timer.Script

/-!
# The POSIX timer: a callback that calls on its own timer

- `word`: what the calls do to `BIT_SCHED` and `BIT_ACTIVE`, and what they return (`word_hom`: a flag to the caller);
- `callback`: the steps from the start of a callback of timer `t` on, with the calls on `t` as a history;
- `Alone`: the discipline: until the `mask_clear(BIT_ACTIVE)` after the callback, the callback alone calls on `t`;
- `Within`: where a call is and the bits of the timer then (`Within.step`);
- `Scripted`: the bits are those of `word` from the start of the callback to its end (`scripted_of_reach`).
-/

namespace Gabs.Timer.Posix

open Gabs.Lib

variable {n m : Nat} {s s' s₀ : Sys n m} {t : Fin n}

/-! ## The bits -/

/-- `BIT_SCHED` and `BIT_ACTIVE` of a timer. -/
def Sys.bits (s : Sys n m) (t : Fin n) : Bool × Bool := ((s.state t).has .sched, (s.state t).has .active)

/-- A timer with one of the bits is active to the caller. -/
def busy (b : Bool × Bool) : Bool := b.1 || b.2

/-- What `gabs_timer_active` answers. -/
def Sys.armed (s : Sys n m) (t : Fin n) : Bool := maskGet (s.state t) (bitActive ||| bitSched) != 0

theorem armed_eq (s : Sys n m) (t : Fin n) : s.armed t = busy (s.bits t) := by
  have h := maskGet_or_eq_zero (s.state t) .active .sched
  rw [Sys.armed, bitActive, bitSched, Bool.eq_iff_iff, bne_iff_ne, ne_eq, h]
  cases hs : (s.state t).has .sched <;> cases ha : (s.state t).has .active <;> simp [busy, Sys.bits, hs, ha]

/-- **The bits of a timer**, under the calls of a script. -/
def word : Mealy (Bool × Bool) OwnCall Answer where
  step b
    | .start _ => if busy b then b else (true, false)
    | .restart _ => (true, false)
    | .stop => (false, false)
    | .active => b
  out b
    | .start _ => .status (if busy b then -ebusy else 0)
    | .restart _ | .stop => .status 0
    | .active => .active (busy b)

/-- To the caller they are one flag. -/
theorem word_hom : Mealy.Hom word flag busy where
  out b q := by cases q <;> rfl
  step b q := by
    cases q with
    | start us =>
      change true = busy (if busy b then b else (true, false))
      cases hb : busy b
      · rfl
      · exact hb.symm
    | _ => rfl

/-- Once a call has set the bits, `BIT_ACTIVE` is clear. -/
theorem word_after_idle (x : Bool) (l : List OwnCall) : (word.after (x, false) l).2 = false := by
  induction l generalizing x with
  | nil => rfl
  | cons q l ih => cases q <;> cases x <;> exact ih _

/-! ## The calls of a callback -/

/-- The calls of a script. -/
def Op.own (t : Fin n) : Op n → Option OwnCall
  | .start u us => if u = t then some (.start us) else none
  | .restart u us => if u = t then some (.restart us) else none
  | .stop u => if u = t then some .stop else none
  | .active u => if u = t then some .active else none
  | _ => none

/-- What they return. -/
def Ret.answer : Ret n → Answer
  | .active b => .active b
  | .status v => .status v
  | .timer _ => .status 0

/-- The callback of a timer, and the call on it in progress. -/
structure Script where
  log : List Entry
  cur : Option OwnCall
  deriving DecidableEq

/-- A call of the worker thread on timer `t` is recorded when it returns. -/
def Script.record (t : Fin n) (_ : Sys n m) (a : Act n m) (s' : Sys n m) (l : Script) : Script :=
  match a with
  | .call .worker op => { l with cur := op.own t }
  | .step .worker _ => match l.cur, s'.calls .worker, s'.ret .worker with
    | some q, .idle, some v => ⟨l.log ++ [⟨q, v.answer⟩], none⟩
    | _, _, _ => l
  | _ => l

/-- The steps from `s₀` on, with the calls of the worker thread on timer `t`. -/
def callback (s₀ : Sys n m) (t : Fin n) : Lts (Sys n m × Script) (Act n m) :=
  Lts.record ⟨(· = s₀), step⟩ ⟨[], none⟩ (Script.record t)

/-- The timer whose callback runs, or has returned and whose `BIT_ACTIVE` is still to be cleared. -/
def Worker.finishing : Worker n → Option (Fin n)
  | .service _ (.alarm i .callback) | .service _ (.alarm i .unlock) | .service _ (.alarm i .clear) => some i
  | _ => none

/-- **Timer `t` is left to its callback**, start, restart, stop and active only, until `BIT_ACTIVE` is cleared;
`timerfd_settime` succeeds. -/
def Alone (t : Fin n) (s : Sys n m) (a : Act n m) : Prop :=
  Linear s a ∧ SettimeOk s a ∧ s.worker.finishing = some t ∧ (∀ th, th ≠ .worker → (s.calls th).timer ≠ some t) ∧
    match a with
    | .call .worker op => op.timer = some t → op.own t ≠ none
    | _ => True

instance (t : Fin n) (s : Sys n m) (a : Act n m) : Decidable (Alone t s a) := by
  unfold Alone
  refine @instDecidableAnd _ _ _ (@instDecidableAnd _ _ _ (@instDecidableAnd _ _ _ (@instDecidableAnd _ _ _ ?_)))
  exact match a with
    | .call .worker _ => inferInstanceAs (Decidable (_ → _))
    | .call (.client _) _ | .work _ | .step .. | .expire _ | .tick _ => instDecidableTrue

/-- The steps of a callback are steps of the system. -/
theorem reach_of_callback (h0 : (system n m).Reach Linear s₀) {x : Sys n m × Script}
    (hr : (callback s₀ t).Reach (fun x a => Alone t x.1 a) x) : (system n m).Reach Linear x.1 := by
  induction hr with
  | init h => exact h.1 ▸ h0
  | step _ hp hst ih => exact ih.step hp.1 (Lts.record_step hst).1

/-! ## One call -/

/-- A call that arms the timer, for the bits it has found. -/
inductive Sets (b : Bool × Bool) : OwnCall → Nat → Prop
  | restart (us : Nat) : Sets b (.restart us) us
  | start (us : Nat) : busy b = false → Sets b (.start us) us

/-- Where the call is, and the bits then; `b` are those that the calls before it have left. -/
inductive Within (t : Fin n) (b : Bool × Bool) : Option OwnCall → Call n → Bool × Bool → Prop
  | between {c : Call n} : c.timer ≠ some t → Within t b none c b
  | check (us : Nat) : Within t b (some (.start us)) (.start t us) b
  | ask : Within t b (some .active) (.active t) b
  | clear {q : OwnCall} {us : Nat} : Sets b q us → Within t b (some q) (.restart t us .clear) b
  | settime {q : OwnCall} {us : Nat} : Sets b q us → Within t b (some q) (.restart t us .settime) (false, false)
  | setSched {q : OwnCall} {us : Nat} : Sets b q us →
      Within t b (some q) (.restart t us (.setSched none)) (false, false)
  | trigger {q : OwnCall} {us : Nat} : Sets b q us → Within t b (some q) (.restart t us (.trigger none)) (true, false)
  | stopClear : Within t b (some .stop) (.stop t false .clear) b
  | stopSettime : Within t b (some .stop) (.stop t false .settime) (false, false)
  | stopTrigger : Within t b (some .stop) (.stop t false (.trigger 0)) (false, false)

variable {b o : Bool × Bool} {q : OwnCall} {us : Nat}

theorem Sets.step (h : Sets b q us) : word.step b q = (true, false) := by
  cases h with
  | restart => rfl
  | start _ hb => simp [word, hb]

theorem Sets.out (h : Sets b q us) : word.out b q = .status 0 := by
  cases h with
  | restart => rfl
  | start _ hb => simp [word, hb]

/-- Between two calls. -/
theorem Within.of_none {c : Call n} (h : Within t b none c o) : c.timer ≠ some t ∧ o = b := by
  cases h with
  | between hn => exact ⟨hn, rfl⟩

theorem Within.of_idle {cur : Option OwnCall} (h : Within t b cur .idle o) : cur = none ∧ o = b := by
  cases h with
  | between => exact ⟨rfl, rfl⟩

/-- The call goes on, or it returns what `word` answers. -/
inductive Proceeds (t : Fin n) (b : Bool × Bool) (q : OwnCall) (s' : Sys n m) : Prop
  | on : s'.calls .worker ≠ .idle → Within t b (some q) (s'.calls .worker) (s'.bits t) → Proceeds t b q s'
  | returns {v : Ret n} : s'.calls .worker = .idle → s'.ret .worker = some v → v.answer = word.out b q →
      s'.bits t = word.step b q → Proceeds t b q s'

theorem Proceeds.done {v : Ret n} (hv : v.answer = word.out b q) (hb : s.bits t = word.step b q) :
    Proceeds t b q (s.done .worker v) :=
  .returns (by simp) (by simp) hv hb

theorem Proceeds.goto {c : Call n} (hc : c ≠ .idle) (h : Within t b (some q) c (s.bits t)) :
    Proceeds t b q (s.goto .worker c) := by
  have hself : (s.goto .worker c).calls .worker = c := by simp
  exact .on (by rw [hself]; exact hc) (by rw [hself]; exact h)

/-- The bits after a `mask_clear` of both. -/
theorem bits_clear : (s.setState t (maskClear (s.state t) (bitActive ||| bitSched))).bits t = (false, false) := by
  simp [Sys.bits, bitActive, bitSched]

/-- The bits after a `mask_set(BIT_SCHED)`. -/
theorem bits_setSched (h : s.bits t = (false, false)) :
    (s.setState t (maskSet (s.state t) bitSched)).bits t = (true, false) := by
  have ha : (s.state t).has .active = false := congrArg Prod.snd h
  simp [Sys.bits, bitSched, ha]

/-- A `timerfd_settime` that succeeds. -/
theorem timerfdSettime_ok {fd : Int} {spec : Itimerspec} {r : Reply} {x : Sys n m × Option Nat} (hr : r.isErr = false)
    (h : timerfdSettime s fd spec r = some x) : x.2 = none ∧ x.1.bits t = s.bits t := by
  unfold timerfdSettime at h
  split at h
  · cases h; exact ⟨rfl, rfl⟩
  · cases hr
  · cases h

/-- A call that sets a timerfd gets no error. -/
theorem SettimeOk.isErr {th : Thread m} {r : Reply} (hok : SettimeOk s (.step th r))
    (hc : (∃ t us, s.calls th = .restart t us .settime) ∨ ∃ t un, s.calls th = .stop t un .settime) :
    r.isErr = false := by
  cases r with
  | err e => obtain ⟨t, us, hc⟩ | ⟨t, un, hc⟩ := hc <;> simp [SettimeOk, hc] at hok
  | _ => rfl

/-- One step of the call. -/
theorem Within.step (h : Within t b (some q) (s.calls .worker) (s.bits t)) {r : Reply}
    (hok : SettimeOk s (.step .worker r)) (hs : callStep s .worker r = some s') : Proceeds t b q s' := by
  have harm := armed_eq s t
  rw [Sys.armed] at harm
  generalize hc : s.calls .worker = c at h
  generalize ho : s.bits t = o at h harm
  cases h with
  | check us =>
    simp only [callStep, hc] at hs
    split at hs
    · rename_i hne
      cases hs
      have hb : busy b = true := by rw [← harm]; exact bne_iff_ne.mpr hne
      exact .done (by simp [Ret.answer, word, hb, eBusy, ebusy]) (by simp [word, hb, ho])
    · rename_i hne
      cases hs
      have hb : busy b = false := by rw [← harm]; simpa using hne
      exact .goto (by simp) (by rw [ho]; exact .clear (.start us hb))
  | ask =>
    simp only [callStep, hc] at hs
    cases hs
    exact .done (by rw [harm]; rfl) ho
  | clear hq =>
    simp only [callStep, hc, timerRestartStep] at hs
    cases hs
    exact .goto (by simp) (bits_clear ▸ .settime hq)
  | settime hq =>
    simp only [callStep, hc, timerRestartStep] at hs
    obtain ⟨⟨s₁, err⟩, hx, rfl⟩ := Option.map_eq_some_iff.mp hs
    obtain ⟨rfl, h1⟩ := timerfdSettime_ok (t := t) (hok.isErr (by simp [hc])) hx
    exact .goto (by simp) (h1.trans ho ▸ .setSched hq)
  | setSched hq =>
    simp only [callStep, hc, timerRestartStep] at hs
    cases hs
    exact .goto (by simp) (bits_setSched ho ▸ .trigger hq)
  | trigger hq =>
    simp only [callStep, hc, timerRestartStep] at hs
    cases hs
    exact .done (by rw [hq.out]; rfl) (ho.trans hq.step.symm)
  | stopClear =>
    simp only [callStep, hc, timerStopStep] at hs
    cases hs
    exact .goto (by simp) (bits_clear ▸ .stopSettime)
  | stopSettime =>
    simp only [callStep, hc, timerStopStep] at hs
    obtain ⟨⟨s₁, err⟩, hx, rfl⟩ := Option.map_eq_some_iff.mp hs
    obtain ⟨rfl, h1⟩ := timerfdSettime_ok (t := t) (hok.isErr (by simp [hc])) hx
    exact .goto (by simp) (h1.trans ho ▸ .stopTrigger)
  | stopTrigger =>
    simp only [callStep, hc, timerStopStep] at hs
    cases hs
    exact .done rfl ho

/-! ## The callback -/

theorem holds_of_finishing {w : Worker n} (h : w.finishing = some t) : w.holds t = true := by
  unfold Worker.finishing at h
  split at h <;> cases h <;> simp

/-- The test of `timer_alarm` changes nothing. -/
theorem Move.fired {r : Reply} (h : Move s (.work r) s') {j : Nat} (hw : s.worker = .service j (.alarm t .test)) :
    s'.state = s.state := by
  cases h with
  | work => rfl
  | _ => simp_all

/-- The worker runs the callback, or completes it. -/
theorem Move.finish {r : Reply} (h : Move s (.work r) s') (hb : InBatch s) (hw : s.worker.finishing = some t) :
    s'.worker.finishing = some t ∧ s'.bits t = s.bits t ∨
      s'.worker.finishing ≠ some t ∧ s'.bits t = ((s.bits t).1, false) := by
  cases h with
  | work hm =>
    cases hm with
    | ret hw' =>
      rw [hw'] at hw
      cases hw
      exact .inl ⟨rfl, rfl⟩
    | batchEnd hw' hj =>
      rw [hw'] at hw
      have := hb _ _ hw' (by rintro rfl; cases hw)
      exact absurd (List.getElem?_eq_none_iff.mp hj) (by omega)
    | _ => simp_all [Worker.finishing]
  | unlock hw' =>
    rw [hw'] at hw
    cases hw
    exact .inl ⟨rfl, rfl⟩
  | clearActive hw' =>
    rw [hw'] at hw
    cases hw
    exact .inr ⟨nofun, by simp [Sys.bits, bitActive]⟩
  | _ => simp_all [Worker.finishing]

/-- Calls on other timers leave the bits as they are. -/
theorem Move.same_bits {a : Act n m} (h : Move s a s') (ho : Own s) (hw : s.worker.finishing = some t)
    (ha : ∀ r, a ≠ .work r) (hn : ∀ th r, a = .step th r → (s.calls th).timer ≠ some t) : s'.bits t = s.bits t := by
  cases h.signal t with
  | same h1 h2 => exact Prod.ext h1 h2
  | clear hc =>
    refine absurd ?_ (hn _ _ rfl)
    generalize s.calls _ = c' at hc
    cases hc <;> rfl
  | setSched hc => exact absurd (by rw [hc]; rfl) (hn _ _ rfl)
  | cas | clearSched | clearActive => exact absurd rfl (ha _)
  | zero _ hz =>
    rcases hz with hz | ⟨th, hc⟩ | ⟨th, hc⟩
    · unfold Worker.finishing at hw
      split at hw <;> cases hw <;> simp_all [Worker.cleans]
    · have hu := ho.held t (holds_of_finishing hw)
      rw [(ho.claimed th t hc).2] at hu
      cases hu
    · rw [ho.joined th (by rw [hc]; rfl)] at hw
      cases hw

/-- **The bits of a timer under its callback**: those of `word` from the start, `b₀`, to the last call; in the end
`BIT_ACTIVE` is clear. -/
structure Scripted (t : Fin n) (b₀ : Bool × Bool) (s : Sys n m) (l : Script) : Prop where
  answers : answers l.log = word.outs b₀ (calls l.log)
  during : s.worker.finishing = some t → Within t (word.after b₀ (calls l.log)) l.cur (s.calls .worker) (s.bits t)
  after : s.worker.finishing ≠ some t → s.bits t = ((word.after b₀ (calls l.log)).1, false)

namespace Scripted

variable {b₀ : Bool × Bool} {l : Script} {a : Act n m}

/-- A step after which the worker thread is where it was. -/
theorem keep (hi : Scripted t b₀ s l) (hw : s'.worker = s.worker) (hf : s.worker.finishing = some t)
    (hc : s'.calls .worker = s.calls .worker) (hb : s'.bits t = s.bits t) : Scripted t b₀ s' l :=
  ⟨hi.answers, fun _ => hc ▸ hb ▸ hi.during hf, fun hn => absurd (hw ▸ hf) hn⟩

/-- The worker thread enters a function. -/
theorem enter (hi : Scripted t b₀ s l) (hf : s.worker.finishing = some t) {op : Op n} (hc : s.calls .worker = .idle)
    (hop : op.timer = some t → op.own t ≠ none) :
    Scripted t b₀ (Posix.enter s .worker op) { l with cur := op.own t } := by
  have hw : (Posix.enter s .worker op).worker = s.worker := enter_worker ..
  refine ⟨hi.answers, fun _ => ?_, fun hn => absurd (hw ▸ hf) hn⟩
  have hcur := hi.during hf
  have hbits : (Posix.enter s .worker op).bits t = s.bits t := by rw [Sys.bits, enter_state]; rfl
  have hcalls : (Posix.enter s .worker op).calls .worker = op.first := by rw [enter_calls, Function.update_self]
  rw [hc] at hcur
  rw [hbits, hcalls, hcur.of_idle.2]
  by_cases ht : op.timer = some t
  · cases op with
    | start u us => cases ht; simpa [Op.own] using .check us
    | restart u us => cases ht; simpa [Op.own] using .clear (.restart us)
    | stop u => cases ht; simpa [Op.own] using .stopClear
    | active u => cases ht; simpa [Op.own] using .ask
    | _ => exact absurd rfl (hop ht)
  · have hown : op.own t = none := by
      cases op with
      | start u | restart u | stop u | active u => exact if_neg fun e => ht (by rw [e]; rfl)
      | _ => rfl
    exact hown ▸ .between (by rw [first_timer]; exact ht)

/-- A call of the worker thread takes a step. -/
theorem call (hi : Scripted t b₀ s l) (ho : Own s) (hf : s.worker.finishing = some t) {r : Reply}
    (hok : SettimeOk s (.step .worker r)) (hs : Posix.step s (.step .worker r) = some s') :
    Scripted t b₀ s' (l.record t s (.step .worker r) s') := by
  have h := step_move hs
  have hw := (h.frame_worker nofun).1
  have hcur := hi.during hf
  cases hq : l.cur with
  | none =>
    have hrec : l.record t s (.step .worker r) s' = l := by simp only [Script.record, hq]
    rw [hq] at hcur
    obtain ⟨hn, hbits⟩ := hcur.of_none
    rw [hrec]
    refine ⟨hi.answers, fun _ => ?_, fun hne => absurd (hw ▸ hf) hne⟩
    have hn' : (s'.calls .worker).timer ≠ some t := by
      rcases h.follows nofun .worker with ⟨h1, -⟩ | ⟨h1, -⟩
      · rw [h1]; nofun
      · rwa [h1]
    rw [hq, h.same_bits ho hf nofun fun th r e => by cases e; exact hn, hbits]
    exact .between hn'
  | some q =>
    rw [hq] at hcur
    cases hcur.step hok hs with
    | on h1 h2 =>
      have hrec : l.record t s (.step .worker r) s' = l := by
        simp only [Script.record]
        split
        · rename_i e _; exact absurd e h1
        · rfl
      rw [hrec]
      exact ⟨hi.answers, fun _ => hq ▸ h2, fun hne => absurd (hw ▸ hf) hne⟩
    | @returns v h1 h2 h3 h4 =>
      have hrec : l.record t s (.step .worker r) s' = ⟨l.log ++ [⟨q, v.answer⟩], none⟩ := by
        simp only [Script.record, hq, h1, h2]
      rw [hrec]
      refine ⟨?_, fun _ => ?_, fun hne => absurd (hw ▸ hf) hne⟩
      · rw [answers_concat, calls_concat, Mealy.outs_concat, ← hi.answers, h3]
      · rw [calls_concat, Mealy.after_concat, h1, h4]
        exact .between nofun

/-- One step, from the start of the callback on. -/
theorem step (hi : Scripted t b₀ s l) (ho : Own s) (hin : Inside s) (hb : InBatch s) (hp : Alone t s a)
    (hs : Posix.step s a = some s') : Scripted t b₀ s' (l.record t s a s') := by
  obtain ⟨-, hok, hf, hothers, hop⟩ := hp
  have h := step_move hs
  have hsame : ∀ th, th ≠ .worker → (∀ r, a ≠ .work r) → (∀ th' r, a = .step th' r → th' = th) →
      s'.bits t = s.bits t := fun th hn hwk hth => h.same_bits ho hf hwk fun th' r e => by
    rw [hth th' r e]; exact hothers th hn
  cases a with
  | work r =>
    have hidle := hin.idle hb h
    have hd := hi.during hf
    rw [hidle] at hd
    obtain ⟨hcur, hbits⟩ := hd.of_idle
    have hrec : l.record t s (.work r) s' = l := rfl
    rw [hrec]
    rcases h.finish hb hf with ⟨h1, h2⟩ | ⟨h1, h2⟩
    · refine ⟨hi.answers, fun _ => ?_, fun hne => absurd h1 hne⟩
      rw [h.frame_calls, hidle, h2, hbits, hcur]
      exact .between nofun
    · exact ⟨hi.answers, fun h3 => absurd h3 h1, fun _ => by rw [h2, hbits]⟩
  | call th op =>
    cases h with
    | enter hc _ he =>
      subst he
      cases th with
      | worker => exact hi.enter hf hc hop
      | client k =>
        refine hi.keep (enter_worker ..) hf ?_ (by rw [Sys.bits, enter_state]; rfl)
        rw [enter_calls]
        exact Function.update_of_ne (by rintro ⟨⟩) ..
  | step th r =>
    cases th with
    | worker => exact hi.call ho hf hok hs
    | client k =>
      exact hi.keep (h.frame_worker nofun).1 hf (h.frame_others.2 _ nofun)
        (hsame (.client k) nofun nofun fun th' r' e => by cases e; rfl)
  | expire | tick => cases h; exact hi.keep rfl hf rfl rfl

end Scripted

/-- **A callback finds its timer active**, and what it calls on it is answered by the two bits. -/
theorem scripted_of_reach {p : Sys n m} (hr : (system n m).Reach Linear p) {r : Reply} {j : Nat}
    (hs : Posix.step p (.work r) = some s₀) (hw₀ : s₀.worker = .service j (.alarm t .callback)) {x : Sys n m × Script}
    (hx : (callback s₀ t).Reach (fun x a => Alone t x.1 a) x) :
    Scripted t ((s₀.state t).has .sched, true) x.1 x.2 := by
  have h0 : (system n m).Reach Linear s₀ := hr.step (a := .work r) trivial hs
  refine hx.record_invariant (I := fun s l => Scripted t ((s₀.state t).has .sched, true) s l) ?_
    fun s a s' l hr' hi hp h => ?_
  · rintro s rfl
    have h := step_move hs
    have hidle : s.calls .worker = .idle := by
      rw [h.frame_calls]
      exact (inside_of_reach hr).idle (inBatch_of_reach hr) h
    obtain ⟨hw, ha⟩ := h.starts hw₀
    have hactive : (s.state t).has .active = true := by rw [h.fired hw]; exact ha
    refine ⟨rfl, fun _ => ?_, fun hne => absurd (by rw [hw₀]; rfl) hne⟩
    rw [hidle, Sys.bits, hactive]
    exact .between nofun
  · have hreach := reach_of_callback h0 hr'
    exact hi.step (own_of_reach hreach) (inside_of_reach hreach) (inBatch_of_reach hreach) hp h

end Gabs.Timer.Posix
