import Gabs.Timer.Posix.Steps

/-!
# The POSIX timer: who owns a slot

- the disciplines of the clients: `Linear` (each handle is uninstalled at most once, `deinit` is the last call),
  `Exclusive` (a handle is not used after its uninstall began, and an uninstall overlaps no other call on its timer),
  `Serial` (calls on one timer do not overlap);
- `Own`: between `mask_set_strict(BIT_ALLOC)` and `mask_set(BIT_USED)` a slot belongs to one install, from then on to
  its timer, from `BIT_ZOMBIE` on to the worker; it holds in every reachable state (`own_of_reach`).
-/

namespace Gabs.Timer.Posix

open Gabs.Lib

variable {n m : Nat}

/-! ## Positions -/

/-- The slot an install holds: it has claimed it and neither published it nor given it back. -/
def Add.slot : Add n → Option (Fin n)
  | .alloc _ => none
  | .fill i | .create i | .initLock i | .errClose i | .errReset i | .publish i => some i

def Call.claims : Call n → Option (Fin n)
  | .install _ _ p => p.slot
  | _ => none

/-- The timer an uninstall is at work on. -/
def Call.removes : Call n → Option (Fin n)
  | .uninstall t _ => some t
  | .stop t un _ => if un then some t else none
  | _ => none

/-- The timer a call is made on. -/
def Call.timer : Call n → Option (Fin n)
  | .uninstall t _ | .start t _ | .restart t _ _ | .stop t _ _ | .active t => some t
  | _ => none

def Call.isDeinit : Call n → Bool
  | .deinit _ => true
  | _ => false

/-- The part of `gabs_timer_ctx_deinit` after `pthread_join`. -/
def Call.afterJoin : Call n → Bool
  | .deinit .exit | .deinit .trigger | .deinit .join => false
  | .deinit _ => true
  | _ => false

/-- The worker has found slot `i` in use and goes on with it. -/
def Worker.holds (i : Fin n) : Worker n → Bool
  | .prepare k p => decide (k = i) && decide (p ≠ .testUsed) && decide (p ≠ .deinitLock)
  | .service _ (.compare k) => decide (k = i)
  | .service _ (.alarm k _) => decide (k = i)
  | _ => false

/-- The worker is in `timer_cleanup` of slot `i`, before the store. -/
def Worker.cleans (i : Fin n) : Worker n → Bool
  | .prepare k p => decide (k = i) && (decide (p = .close) || decide (p = .reset))
  | _ => false

section Positions

variable (i k : Fin n) (j : Nat)

@[simp] theorem holds_top : Worker.holds i .top = false := rfl

@[simp] theorem holds_poll : Worker.holds i .poll = false := rfl

@[simp] theorem holds_eventRead : Worker.holds i .eventRead = false := rfl

@[simp] theorem holds_exited : Worker.holds i .exited = false := rfl

@[simp] theorem holds_head : Worker.holds i (.service j .head) = false := rfl

@[simp] theorem holds_read : Worker.holds i (.service j .read) = false := rfl

@[simp] theorem holds_valid : Worker.holds i (.service j (.valid k)) = false := rfl

@[simp] theorem holds_compare : Worker.holds i (.service j (.compare k)) = decide (k = i) := rfl

@[simp] theorem holds_alarm (p : Alarm) : Worker.holds i (.service j (.alarm k p)) = decide (k = i) := rfl

@[simp] theorem holds_prepare (p : Prepare) : Worker.holds i (.prepare k p) =
    (decide (k = i) && decide (p ≠ .testUsed) && decide (p ≠ .deinitLock)) := rfl

@[simp] theorem cleans_top : Worker.cleans i .top = false := rfl

@[simp] theorem cleans_poll : Worker.cleans i .poll = false := rfl

@[simp] theorem cleans_eventRead : Worker.cleans i .eventRead = false := rfl

@[simp] theorem cleans_exited : Worker.cleans i .exited = false := rfl

@[simp] theorem cleans_service (p : Service n) : Worker.cleans i (.service j p) = false := rfl

@[simp] theorem cleans_prepare (p : Prepare) : Worker.cleans i (.prepare k p) =
    (decide (k = i) && (decide (p = .close) || decide (p = .reset))) := rfl

end Positions

@[simp] theorem prepareFrom_holds (i : Fin n) (k : Nat) : (prepareFrom n k).holds i = false := by
  unfold prepareFrom; split <;> simp [Worker.holds]

@[simp] theorem prepareFrom_cleans (i : Fin n) (k : Nat) : (prepareFrom n k).cleans i = false := by
  unfold prepareFrom; split <;> simp [Worker.cleans]

@[simp] theorem findFrom_holds (i : Fin n) (j k : Nat) : (findFrom n j k).holds i = false := by
  unfold findFrom; split <;> rfl

@[simp] theorem findFrom_cleans (i : Fin n) (j k : Nat) : (findFrom n j k).cleans i = false := by
  unfold findFrom; split <;> rfl

@[simp] theorem allocCall_claims (cb : Option Nat) (arg k : Nat) : (allocCall n cb arg k).claims = none := by
  unfold allocCall; split <;> rfl

@[simp] theorem allocCall_removes (cb : Option Nat) (arg k : Nat) : (allocCall n cb arg k).removes = none := by
  unfold allocCall; split <;> rfl

@[simp] theorem allocCall_timer (cb : Option Nat) (arg k : Nat) : (allocCall n cb arg k).timer = none := by
  unfold allocCall; split <;> rfl

@[simp] theorem allocCall_isDeinit (cb : Option Nat) (arg k : Nat) : (allocCall n cb arg k).isDeinit = false := by
  unfold allocCall; split <;> rfl

@[simp] theorem allocCall_afterJoin (cb : Option Nat) (arg k : Nat) : (allocCall n cb arg k).afterJoin = false := by
  unfold allocCall; split <;> rfl

@[simp] theorem deinitCall_claims (k : Nat) : (deinitCall n k).claims = none := by
  unfold deinitCall; split <;> rfl

@[simp] theorem deinitCall_removes (k : Nat) : (deinitCall n k).removes = none := by
  unfold deinitCall; split <;> rfl

@[simp] theorem deinitCall_timer (k : Nat) : (deinitCall n k).timer = none := by
  unfold deinitCall; split <;> rfl

/-! ## Disciplines -/

/-- The handle `t` may be used: the timer is installed and its uninstall has not begun. -/
def Sys.Live (s : Sys n m) (t : Fin n) : Prop :=
  (s.state t).has .used = true ∧ (s.state t).has .zombie = false ∧ ∀ th, (s.calls th).removes ≠ some t

instance (s : Sys n m) (t : Fin n) : Decidable (s.Live t) := inferInstanceAs (Decidable (_ ∧ _ ∧ _))

/-- `gabs_timer_ctx_deinit` has not been called. -/
def Sys.Open (s : Sys n m) : Prop := s.workState = .normal ∧ ∀ th, (s.calls th).isDeinit = false

instance (s : Sys n m) : Decidable s.Open := inferInstanceAs (Decidable (_ ∧ _))

/-- **Handles are linear.** An uninstall is made on an installed timer whose uninstall has not begun; `deinit` is made
by a client after all other calls have returned, and no call is made after it. -/
def Linear (s : Sys n m) : Act n m → Prop
  | .call _ (.uninstall t) => s.Open ∧ s.Live t
  | .call th .deinit => s.Open ∧ th ≠ .worker ∧ ∀ th', s.calls th' = .idle
  | .call _ _ => s.Open
  | _ => True

instance (s : Sys n m) (a : Act n m) : Decidable (Linear s a) := by
  unfold Linear; split <;> infer_instance

/-- The timer a function is called on. -/
def Op.timer : Op n → Option (Fin n)
  | .uninstall t | .start t _ | .restart t _ | .stop t | .active t => some t
  | _ => none

/-- No call on timer `t` is in progress. -/
def Sys.Free (s : Sys n m) (t : Fin n) : Prop := ∀ th, (s.calls th).timer ≠ some t

instance (s : Sys n m) (t : Fin n) : Decidable (s.Free t) := inferInstanceAs (Decidable (∀ _, _ ≠ _))

/-- **Uninstalls are exclusive**: besides, a handle is not used once its uninstall has begun, and an uninstall begins
when no other call on its timer is in progress. -/
def Exclusive (s : Sys n m) (a : Act n m) : Prop :=
  Linear s a ∧ match a with
    | .call _ (.uninstall t) => s.Free t
    | .call _ op => ∀ t, op.timer = some t → s.Live t
    | _ => True

instance (s : Sys n m) (a : Act n m) : Decidable (Exclusive s a) := by
  unfold Exclusive; split <;> infer_instance

/-- **Calls are serial**: besides, a call on a timer begins when no other call on it is in progress. -/
def Serial (s : Sys n m) (a : Act n m) : Prop :=
  Exclusive s a ∧ match a with
    | .call _ op => ∀ t, op.timer = some t → s.Free t
    | _ => True

instance (s : Sys n m) (a : Act n m) : Decidable (Serial s a) := by
  unfold Serial; split <;> infer_instance

theorem Linear.open {s : Sys n m} {th : Thread m} {op : Op n} (h : Linear s (.call th op)) : s.Open := by
  cases op
  case uninstall t => exact h.1
  case deinit => exact h.1
  all_goals exact h

/-! ## The invariant -/

/-- **Ownership of slots.** -/
structure Own (s : Sys n m) : Prop where
  allocated : ∀ i, (s.state i).has .used = true → (s.state i).has .alloc = true
  used : ∀ i, (s.state i).has .zombie = true → (s.state i).has .used = true
  claimed : ∀ th i, (s.calls th).claims = some i → (s.state i).has .alloc = true ∧ (s.state i).has .used = false
  owner : ∀ i, (s.state i).has .alloc = true → (s.state i).has .used = false → ∃ th, (s.calls th).claims = some i
  claim_unique : ∀ th th' i, (s.calls th).claims = some i → (s.calls th').claims = some i → th = th'
  removed : ∀ th i, (s.calls th).removes = some i → (s.state i).has .used = true ∧ (s.state i).has .zombie = false
  remove_unique : ∀ th th' i, (s.calls th).removes = some i → (s.calls th').removes = some i → th = th'
  held : ∀ i, s.worker.holds i = true → (s.state i).has .used = true
  cleaned : ∀ i, s.worker.cleans i = true → (s.state i).has .zombie = true
  deinit : ∀ th th', (s.calls th).isDeinit = true → th' ≠ th → s.calls th' = .idle
  joined : ∀ th, (s.calls th).afterJoin = true → s.worker = .exited

theorem isDeinit_of_afterJoin {c : Call n} (h : c.afterJoin = true) : c.isDeinit = true := by
  cases c <;> simp_all [Call.afterJoin, Call.isDeinit]

variable {s : Sys n m}

/-- The flags of the words that ownership is about are the same. -/
def SameOwner (s s' : Sys n m) : Prop :=
  ∀ i, (s'.state i).has .alloc = (s.state i).has .alloc ∧ (s'.state i).has .used = (s.state i).has .used ∧
    (s'.state i).has .zombie = (s.state i).has .zombie

theorem SameOwner.of_eq {s' : Sys n m} (h : s'.state = s.state) : SameOwner s s' :=
  fun i => by simp only [h, and_self]

theorem SameOwner.of_update {s' : Sys n m} {i : Fin n} {w : Word} (h : s'.state = Function.update s.state i w)
    (h1 : w.has .alloc = (s.state i).has .alloc) (h2 : w.has .used = (s.state i).has .used)
    (h3 : w.has .zombie = (s.state i).has .zombie) : SameOwner s s' := by
  intro j
  rw [h, Function.update_apply]
  split
  · rename_i e; subst e; exact ⟨h1, h2, h3⟩
  · exact ⟨rfl, rfl, rfl⟩

/-- The worker moves. -/
theorem Own.moved {s' : Sys n m} (hi : Own s) (hs : SameOwner s s') (hc : s'.calls = s.calls)
    (h1 : ∀ i, s'.worker.holds i = true → (s.state i).has .used = true)
    (h2 : ∀ i, s'.worker.cleans i = true → (s.state i).has .zombie = true)
    (h3 : s.worker = .exited → s'.worker = .exited) : Own s' := by
  obtain ⟨ha, hu, hcl, ho, hcu, hrm, hru, hh, hcn, hd, hj⟩ := hi
  have hs1 := fun i => (hs i).1
  have hs2 := fun i => (hs i).2.1
  have hs3 := fun i => (hs i).2.2
  constructor <;> simp only [hc, hs1, hs2, hs3] <;> grind

/-- The worker goes on at `w'`, and holds and cleans no further slot. -/
structure Worker.Next (w w' : Worker n) : Prop where
  running : w ≠ .exited
  holds : ∀ i, w'.holds i = true → w.holds i = true
  cleans : ∀ i, w'.cleans i = true → w.cleans i = true

/-- The worker holds the slots it cleans. -/
theorem holds_of_cleans {w : Worker n} {i : Fin n} (h : w.cleans i = true) : w.holds i = true := by
  cases w <;> simp_all
  rcases h.2 with e | e <;> simp [e]

theorem not_cleans {w : Worker n} {i : Fin n} (h : w.holds i = false) : w.cleans i = false := by
  cases hc : w.cleans i
  · rfl
  · rw [← h, holds_of_cleans hc]

/-- The worker goes on and holds nothing. -/
theorem Worker.Next.free {w w' : Worker n} (hw : w ≠ .exited) (hh : ∀ i, w'.holds i = false) : w.Next w' where
  running := hw
  holds i h := by
    rw [hh i] at h
    cases h
  cleans i h := by
    rw [not_cleans (hh i)] at h
    cases h

/-- The worker goes on and finds no further slot. -/
theorem Own.moved_on {s' : Sys n m} (hi : Own s) (hs : SameOwner s s') (hc : s'.calls = s.calls)
    (hn : s.worker.Next s'.worker) : Own s' :=
  hi.moved hs hc (fun i h => hi.held i (hn.holds i h)) (fun i h => hi.cleaned i (hn.cleans i h))
    fun h => absurd h hn.running

/-- The worker gives a slot back. -/
theorem Own.cleared {s' : Sys n m} (hi : Own s) {i : Fin n} (hs : s'.state = Function.update s.state i 0)
    (hc : s'.calls = s.calls) (hz : (s.state i).has .zombie = true) (h1 : ∀ k, s'.worker.holds k = false)
    (h2 : ∀ k, s'.worker.cleans k = false) (h3 : s.worker ≠ .exited) : Own s' := by
  obtain ⟨ha, hu, hcl, ho, hcu, hrm, hru, hh, hcn, hd, hj⟩ := hi
  constructor <;> simp only [hs, hc, h1, h2, Function.update_apply]
  all_goals grind [has_zero]

/-- A call goes on from `c` to `c'` with the slots that it has. -/
structure Call.Next (c c' : Call n) : Prop where
  busy : c ≠ .idle
  claims : c'.claims = c.claims
  removes : c'.removes = c.removes
  isDeinit : c'.isDeinit = true → c.isDeinit = true

section Next

variable {c c' : Call n} {cb : Option Nat} {arg : Nat} {p p' : Add n} {t : Fin n} {us : Nat}

/-- A call that has no slot returns. -/
theorem Call.Next.done (hb : c ≠ .idle) (hc : c.claims = none) (hr : c.removes = none) : c.Next .idle :=
  ⟨hb, hc.symm, hr.symm, by simp [Call.isDeinit]⟩

theorem Call.Next.install (hp : p'.slot = p.slot) : (Call.install cb arg p).Next (.install cb arg p') :=
  ⟨by simp, hp, rfl, id⟩

/-- The loop of `timer_alloc`. -/
theorem Call.Next.alloc {i : Fin n} {k : Nat} : (Call.install cb arg (.alloc i)).Next (allocCall n cb arg k) where
  busy := by simp
  claims := allocCall_claims cb arg k
  removes := allocCall_removes cb arg k
  isDeinit h := by
    rw [allocCall_isDeinit] at h
    cases h

theorem Call.Next.restart {p p' : Restart} : (Call.restart t us p).Next (.restart t us p') := ⟨by simp, rfl, rfl, id⟩

/-- What a call does that is at work on the removal of a timer. -/
theorem Call.alone_of_removes (h : c.removes = some t) : c ≠ .idle ∧ c.claims = none ∧ c.isDeinit = false := by
  cases c <;> simp_all [Call.removes, Call.claims, Call.isDeinit]

/-- An uninstall goes on, also in its `gabs_timer_stop`. -/
theorem Call.Next.remove (h : c.removes = some t) (h' : c'.removes = some t) : c.Next c' := by
  obtain ⟨hb, hc, -⟩ := Call.alone_of_removes h
  obtain ⟨-, hc', hd'⟩ := Call.alone_of_removes h'
  refine ⟨hb, hc'.trans hc.symm, h'.trans h.symm, fun hd => ?_⟩
  rw [hd'] at hd
  cases hd

theorem Call.Next.deinit {p p' : Deinit n} : (Call.deinit p).Next (.deinit p') := ⟨by simp, rfl, rfl, id⟩

/-- The loop of `gabs_timer_ctx_deinit`. -/
theorem Call.Next.clean {p : Deinit n} {k : Nat} : (Call.deinit p).Next (deinitCall n k) :=
  ⟨by simp, deinitCall_claims k, deinitCall_removes k, fun _ => rfl⟩

theorem Clears.next (h : Clears t c c') : c.Next c' := by
  cases h with
  | restart => exact .restart
  | stop un => exact ⟨by simp, rfl, rfl, id⟩

theorem Settime.next {spec : Itimerspec} (h : Settime t spec c c') : c.Next c' := by
  cases h with
  | restart => exact .restart
  | stop un => exact ⟨by simp, rfl, rfl, id⟩

end Next

/-- A call moves and holds the same slots as before. -/
theorem Own.called {s' : Sys n m} (hi : Own s) {th : Thread m} {c : Call n} (hs : SameOwner s s')
    (hw : s'.worker = s.worker) (hc : s'.calls = Function.update s.calls th c) (hn : (s.calls th).Next c)
    (hjoined : c.afterJoin = true → s.worker = .exited) : Own s' := by
  obtain ⟨ha, hu, hcl, ho, hcu, hrm, hru, hh, hcn, hd, hj⟩ := hi
  obtain ⟨h1, h2, h3, h4⟩ := hn
  have hs1 := fun i => (hs i).1
  have hs2 := fun i => (hs i).2.1
  have hs3 := fun i => (hs i).2.2
  constructor <;> simp only [hc, hw, hs1, hs2, hs3, Function.update_apply]
  all_goals grind

/-- Thread `th`, and no other, is at work on slot `i`; it stores `w` there and goes on with `c`. -/
structure Stores (s : Sys n m) (th : Thread m) (i : Fin n) (w : Word) (c : Call n) : Prop where
  busy : s.calls th ≠ .idle
  allocated : w.has .used = true → w.has .alloc = true
  used : w.has .zombie = true → w.has .used = true
  claims : c.claims = none ∧ (w.has .alloc = true → w.has .used = true) ∨
    c.claims = some i ∧ w.has .alloc = true ∧ w.has .used = false
  claimed : (s.calls th).claims = none ∨ (s.calls th).claims = some i
  removes : c.removes = none
  claim_unique : ∀ th', th' ≠ th → (s.calls th').claims ≠ some i
  remove_unique : ∀ th', th' ≠ th → (s.calls th').removes ≠ some i
  held : s.worker.holds i = true → w.has .used = true
  cleaned : s.worker.cleans i = true → w.has .zombie = true
  isDeinit : c.isDeinit = true → (s.calls th).isDeinit = true
  afterJoin : c.afterJoin = true → (s.calls th).afterJoin = true

/-- A call moves and the word of one slot changes. -/
theorem Own.changed {s' : Sys n m} (hi : Own s) {th : Thread m} {i : Fin n} {w : Word} {c : Call n}
    (hs : s'.state = Function.update s.state i w) (hw : s'.worker = s.worker)
    (hc : s'.calls = Function.update s.calls th c) (hst : Stores s th i w c) : Own s' := by
  obtain ⟨ha, hu, hcl, ho, hcu, hrm, hru, hh, hcn, hd, hj⟩ := hi
  obtain ⟨h1, h2, h3, h4, h5, h6, h7, h8, h9, h10, h11, h12⟩ := hst
  constructor <;> simp only [hs, hw, hc, Function.update_apply]
  all_goals grind

theorem first_claims (op : Op n) : op.first.claims = none := by
  cases op
  case install cb arg => exact allocCall_claims cb arg 0
  all_goals rfl

theorem first_afterJoin (op : Op n) : op.first.afterJoin = false := by
  cases op
  case install cb arg => exact allocCall_afterJoin cb arg 0
  all_goals rfl

theorem first_removes {op : Op n} {i : Fin n} (h : op.first.removes = some i) : op = .uninstall i := by
  cases op
  case install cb arg => simp [Op.first] at h
  all_goals simp_all [Op.first, Call.removes]

theorem first_isDeinit {op : Op n} (h : op.first.isDeinit = true) : op = .deinit := by
  cases op
  case install cb arg => simp [Op.first] at h
  all_goals simp_all [Op.first, Call.isDeinit]

/-- A thread that is in no call enters a function. -/
theorem Own.enter (hi : Own s) {th : Thread m} {op : Op n} (hc : s.calls th = .idle)
    (hp : Linear s (.call th op)) : Own (enter s th op) := by
  have h0 : (s.calls th).claims = none := by rw [hc]; rfl
  have hop := hp.open.2
  have h1 := first_claims op
  have h2 := first_afterJoin op
  have h3 : ∀ i, op.first.removes = some i → s.Live i := fun i h => by
    have := first_removes h; subst this; exact hp.2
  have h4 : op.first.isDeinit = true → ∀ th', s.calls th' = .idle := fun h => by
    have := first_isDeinit h; subst this; exact hp.2.2
  obtain ⟨ha, hu, hcl, ho, hcu, hrm, hru, hh, hcn, hd, hj⟩ := hi
  constructor <;> simp only [enter_state, enter_calls, enter_worker, Function.update_apply]
  all_goals grind [Sys.Live]

theorem WorkMove.ne_exited {w : Worker n} (h : WorkMove s w) : s.worker ≠ .exited := by
  cases h <;> simp_all

theorem Move.ne_exited {s' : Sys n m} {r : Reply} (h : Move s (.work r) s') : s.worker ≠ .exited := by
  cases h with
  | work h => exact h.ne_exited
  | pass h | close h | reset h | deinitLock h | cas h | push h | clearSched h | pollEvent h | pollTimers h | eventRead h
  | read h | lock h | unlock h | clearActive h => rw [h]; nofun

/-- The worker holds a slot from `mask_test(BIT_USED)` on. -/
theorem WorkMove.holds {w : Worker n} (h : WorkMove s w) (hi : Own s) (i : Fin n) (hw : w.holds i = true) :
    (s.state i).has .used = true := by
  have hh := hi.held i
  cases h <;> grind [Worker.holds, prepareFrom_holds, findFrom_holds]

/-- The worker cleans a slot from `mask_test(BIT_ZOMBIE)` on. -/
theorem WorkMove.cleans {w : Worker n} (h : WorkMove s w) (hi : Own s) (i : Fin n) (hw : w.cleans i = true) :
    (s.state i).has .zombie = true := by
  have hh := hi.cleaned i
  cases h <;> grind [Worker.cleans, prepareFrom_cleans, findFrom_cleans]

theorem CallMove.not_idle {th : Thread m} {r : Reply} {c : Call n} (h : CallMove s th r c) : s.calls th ≠ .idle := by
  cases h <;> simp_all

/-- A call that only moves keeps its slots. -/
theorem CallMove.keeps {th : Thread m} {r : Reply} {c : Call n} (h : CallMove s th r c) :
    c.claims = (s.calls th).claims ∧ c.removes = (s.calls th).removes ∧ c.isDeinit = (s.calls th).isDeinit ∧
      c.timer = (s.calls th).timer := by
  cases h <;> simp_all [Call.claims, Call.removes, Call.isDeinit, Call.timer, Add.slot]

/-- The calls that return without a change hold no slot. -/
theorem DoneMove.keeps {th : Thread m} {v : Ret n} (h : DoneMove s th v) :
    (s.calls th).claims = none ∧ (s.calls th).removes = none ∧ s.calls th ≠ .idle := by
  cases h with
  | busy hc | active hc => rw [hc]; exact ⟨rfl, rfl, by simp⟩

theorem CallMove.afterJoin {th : Thread m} {r : Reply} {c : Call n} (h : CallMove s th r c) (hi : Own s)
    (hc : c.afterJoin = true) : s.worker = .exited := by
  have hj := hi.joined th
  cases h <;> simp_all [Call.afterJoin]

/-- Nobody has a slot whose `BIT_ALLOC` is not set. -/
theorem Own.free (hi : Own s) {i : Fin n} (h : (s.state i).has .alloc = false) :
    (∀ th, (s.calls th).claims ≠ some i) ∧ (∀ th, (s.calls th).removes ≠ some i) ∧
      (s.state i).has .used = false ∧ s.worker.holds i = false := by
  have ha := hi.allocated i
  have hh := hi.held i
  refine ⟨fun th hc => ?_, fun th hr => ?_, ?_, ?_⟩
  · have := (hi.claimed th i hc).1; grind
  · have := (hi.removed th i hr).1; grind
  · grind
  · grind

/-- Nobody else has a slot that an install holds. -/
theorem Own.mine (hi : Own s) {th : Thread m} {i : Fin n} (h : (s.calls th).claims = some i) :
    (∀ th', th' ≠ th → (s.calls th').claims ≠ some i) ∧ (∀ th', (s.calls th').removes ≠ some i) ∧
      (s.state i).has .zombie = false ∧ s.worker.holds i = false := by
  have hu := (hi.claimed th i h).2
  have hz := hi.used i
  have hh := hi.held i
  refine ⟨fun th' hn hc => hn (hi.claim_unique th' th i hc h), fun th' hr => ?_, ?_, ?_⟩
  · have := (hi.removed th' i hr).1; grind
  · grind
  · grind

/-- Once the worker has exited nothing is held, and `deinit` is the only call. -/
theorem Own.alone (hi : Own s) (th : Thread m) (h : (s.calls th).afterJoin = true) :
    (∀ i, s.worker.holds i = false) ∧ ∀ th', th' ≠ th → s.calls th' = .idle := by
  refine ⟨fun i => ?_, fun th' hn => hi.deinit th th' (isDeinit_of_afterJoin h) hn⟩
  rw [hi.joined th h, holds_exited]

/-- One step of the system keeps the invariant. -/
theorem Own.step {s' : Sys n m} {a : Act n m} (hi : Own s) (hp : Linear s a) (h : Move s a s') : Own s' := by
  cases h with
  | tick ns => exact hi.moved (.of_eq rfl) rfl hi.held hi.cleaned id
  | expire hf hd => exact hi.moved (.of_eq rfl) rfl hi.held hi.cleaned id
  | enter hc hw he =>
    rw [he]
    exact hi.enter hc hp
  | work h => exact hi.moved (.of_eq rfl) rfl (h.holds hi) (h.cleans hi) fun e => absurd e h.ne_exited
  | pass hw | deinitLock hw | pollTimers hw | pollEvent hw | eventRead hw =>
    have hrunning : s.worker ≠ .exited := by simp [hw]
    exact hi.moved_on (.of_eq rfl) rfl (.free hrunning (by simp))
  | close hw | push hw | lock hw | unlock hw =>
    refine hi.moved_on (.of_eq rfl) rfl ?_
    rw [Sys.work_worker, hw]
    exact ⟨by simp, by simp, by simp⟩
  | read hw =>
    refine hi.moved_on (.of_eq rfl) rfl (.free (by simp [hw]) fun i => ?_)
    rw [Sys.work_worker]
    split <;> simp
  | cas hw hc =>
    have hflags := (has_of_maskCas hc).2
    refine hi.moved_on (.of_update rfl ?_ ?_ ?_) rfl ?_
    · simp [hflags]
    · simp [hflags]
    · simp [hflags]
    · rw [Sys.work_worker, hw]
      exact ⟨by simp, by simp, by simp⟩
  | clearSched hw | clearActive hw =>
    have hrunning : s.worker ≠ .exited := by simp [hw]
    refine hi.moved_on (.of_update rfl ?_ ?_ ?_) rfl (.free hrunning (by simp))
    all_goals simp [bitSched, bitActive]
  | @reset r i hw =>
    have hzombie : (s.state i).has .zombie = true := hi.cleaned i (by simp [hw])
    have hrunning : s.worker ≠ .exited := by simp [hw]
    exact hi.cleared rfl rfl hzombie (by simp) (by simp) hrunning
  | goto h =>
    obtain ⟨hclaims, hremoves, hdeinit, -⟩ := h.keeps
    refine hi.called (.of_eq rfl) rfl rfl ⟨h.not_idle, hclaims, hremoves, fun e => ?_⟩ (h.afterJoin hi)
    rw [← hdeinit, e]
  | done h =>
    obtain ⟨hclaims, hremoves, hbusy⟩ := h.keeps
    exact hi.called (.of_eq rfl) rfl rfl (.done hbusy hclaims hremoves) (by simp [Call.afterJoin])
  | taken hc =>
    refine hi.called (.of_eq rfl) rfl rfl ?_ (by simp)
    rw [hc]
    exact .alloc
  | @claim th r cb arg i hc ha =>
    obtain ⟨hclaims, hremoves, hused, hholds⟩ := hi.free ha
    have hcleans := not_cleans hholds
    exact hi.changed rfl rfl rfl
      { busy := by simp [hc]
        allocated := by simp [bitAlloc]
        used := by simpa [bitAlloc] using hi.used i
        claims := .inr ⟨rfl, by simp [bitAlloc], by simp [bitAlloc, hused]⟩
        claimed := .inl (by rw [hc]; rfl)
        removes := rfl
        claim_unique := fun th' _ => hclaims th'
        remove_unique := fun th' _ => hremoves th'
        held := by simp [hholds]
        cleaned := by simp [hcleans]
        isDeinit := by simp [Call.isDeinit]
        afterJoin := by simp [Call.afterJoin] }
  | fill hc | create hc | createErr hc | initLock hc | errClose hc =>
    refine hi.called (.of_eq rfl) rfl rfl ?_ (by simp [Call.afterJoin])
    rw [hc]
    exact .install rfl
  | @errReset th r cb arg i hc =>
    have hmine : (s.calls th).claims = some i := by rw [hc]; rfl
    obtain ⟨hclaims, hremoves, -, hholds⟩ := hi.mine hmine
    have hcleans := not_cleans hholds
    exact hi.changed rfl rfl rfl
      { busy := by simp [hc]
        allocated := by simp
        used := by simp
        claims := .inl ⟨rfl, by simp⟩
        claimed := .inr hmine
        removes := rfl
        claim_unique := hclaims
        remove_unique := fun th' _ => hremoves th'
        held := by simp [hholds]
        cleaned := by simp [hcleans]
        isDeinit := by simp [Call.isDeinit]
        afterJoin := by simp [Call.afterJoin] }
  | @publish th r cb arg i hc =>
    have hmine : (s.calls th).claims = some i := by rw [hc]; rfl
    have halloc := (hi.claimed th i hmine).1
    obtain ⟨hclaims, hremoves, -, hholds⟩ := hi.mine hmine
    have hcleans := not_cleans hholds
    exact hi.changed rfl rfl rfl
      { busy := by simp [hc]
        allocated := by simp [bitUsed, halloc]
        used := by simp [bitUsed]
        claims := .inl ⟨rfl, by simp [bitUsed]⟩
        claimed := .inr hmine
        removes := rfl
        claim_unique := hclaims
        remove_unique := fun th' _ => hremoves th'
        held := by simp [hholds]
        cleaned := by simp [hcleans]
        isDeinit := by simp [Call.isDeinit]
        afterJoin := by simp [Call.afterJoin] }
  | @clear th r t c hc =>
    have hjoined : c.afterJoin = true → s.worker = .exited := by
      generalize s.calls th = c₀ at hc
      cases hc <;> simp [Call.afterJoin]
    refine hi.called (.of_update (i := t) rfl ?_ ?_ ?_) rfl rfl hc.next hjoined
    all_goals simp [bitActive, bitSched]
  | @settime th t spec c tf hc =>
    have hjoined : c.afterJoin = true → s.worker = .exited := by
      generalize s.calls th = c₀ at hc
      cases hc <;> simp [Call.afterJoin]
    exact hi.called (.of_eq rfl) rfl rfl hc.next hjoined
  | setSched hc =>
    refine hi.called (.of_update rfl ?_ ?_ ?_) rfl rfl ?_ (by simp [Call.afterJoin])
    · simp [bitSched]
    · simp [bitSched]
    · simp [bitSched]
    · rw [hc]
      exact .restart
  | started hc | stopped hc =>
    refine hi.called (.of_eq rfl) rfl rfl ?_ (by simp [Call.afterJoin])
    rw [hc]
    exact .done (by simp) rfl rfl
  | unStopped hc | unLock hc | unUnlock hc =>
    refine hi.called (.of_eq rfl) rfl rfl ?_ (by simp [Call.afterJoin])
    rw [hc]
    exact .remove rfl rfl
  | @zombie th r t hc =>
    have hremoves : (s.calls th).removes = some t := by rw [hc]; rfl
    have hused := (hi.removed th t hremoves).1
    have hclaims : ∀ th', (s.calls th').claims ≠ some t := by
      intro th' h
      rw [(hi.claimed th' t h).2] at hused
      cases hused
    exact hi.changed rfl rfl rfl
      { busy := by simp [hc]
        allocated := by simpa [bitZombie] using hi.allocated t
        used := by simp [bitZombie, hused]
        claims := .inl ⟨rfl, by simp [bitZombie, hused]⟩
        claimed := .inl (by rw [hc]; rfl)
        removes := rfl
        claim_unique := fun th' _ => hclaims th'
        remove_unique := fun th' hn h => hn (hi.remove_unique th' th t h hremoves)
        held := by simp [bitZombie, hused]
        cleaned := by simp [bitZombie]
        isDeinit := by simp [Call.isDeinit]
        afterJoin := by simp [Call.afterJoin] }
  | deinitExit hc | deinitTrigger hc =>
    refine hi.called (.of_eq rfl) rfl rfl ?_ (by simp [Call.afterJoin])
    rw [hc]
    exact .deinit
  | @deinitEvent th r hc | @deinitSkip th r i hc | @deinitMutex th r i hc =>
    have hjoined : s.worker = .exited := hi.joined th (by rw [hc]; rfl)
    refine hi.called (.of_eq rfl) rfl rfl ?_ fun _ => hjoined
    rw [hc]
    exact .clean
  | @deinitClose th r i hc =>
    have hjoined : s.worker = .exited := hi.joined th (by rw [hc]; rfl)
    refine hi.called (.of_eq rfl) rfl rfl ?_ fun _ => hjoined
    rw [hc]
    exact .deinit
  | @deinitReset th r i hc =>
    obtain ⟨hholds, hidle⟩ := hi.alone th (by rw [hc]; rfl)
    have hcleans := not_cleans (hholds i)
    exact hi.changed rfl rfl rfl
      { busy := by simp [hc]
        allocated := by simp
        used := by simp
        claims := .inl ⟨rfl, by simp⟩
        claimed := .inl (by rw [hc]; rfl)
        removes := rfl
        claim_unique := fun th' hn => by simp [hidle th' hn, Call.claims]
        remove_unique := fun th' hn => by simp [hidle th' hn, Call.removes]
        held := by simp [hholds]
        cleaned := by simp [hcleans]
        isDeinit := by simp [hc, Call.isDeinit]
        afterJoin := by simp [hc, Call.afterJoin] }

theorem Own.init {s : Sys n m} (h : (system n m).init s) : Own s := by
  obtain ⟨fd, -, rfl⟩ := h
  constructor <;> simp [ctxInit, Call.claims, Call.removes, Call.isDeinit, Call.afterJoin]

/-- A step of a call is made by a thread in a call, and moves no other. -/
theorem Move.frame_others {s' : Sys n m} {th : Thread m} {r : Reply} (h : Move s (.step th r) s') :
    s.calls th ≠ .idle ∧ ∀ th', th' ≠ th → s'.calls th' = s.calls th' := by
  cases h with
  | goto h => exact ⟨h.not_idle, fun th' hn => Function.update_of_ne hn ..⟩
  | done h => exact ⟨h.keeps.2.2, fun th' hn => Function.update_of_ne hn ..⟩
  | clear hc =>
    generalize s.calls th = c at hc ⊢
    exact ⟨by cases hc <;> simp, fun th' hn => Function.update_of_ne hn ..⟩
  | settime hc =>
    generalize s.calls th = c at hc ⊢
    exact ⟨by cases hc <;> simp, fun th' hn => Function.update_of_ne hn ..⟩
  | taken hc | claim hc | fill hc | create hc | createErr hc | initLock hc | errClose hc | errReset hc | publish hc
  | setSched hc | started hc | stopped hc | unStopped hc | unLock hc | unUnlock hc | zombie hc | deinitExit hc
  | deinitTrigger hc | deinitEvent hc | deinitSkip hc | deinitClose hc | deinitReset hc | deinitMutex hc =>
    exact ⟨by simp [hc], fun th' hn => Function.update_of_ne hn ..⟩

/-- Only an entry brings a thread into `deinit`. -/
theorem Move.isDeinit {s' : Sys n m} {th : Thread m} {r : Reply} (h : Move s (.step th r) s')
    (hd : (s'.calls th).isDeinit = true) : (s.calls th).isDeinit = true := by
  cases h with
  | goto h =>
    rw [Sys.goto_calls, Function.update_self] at hd
    exact h.keeps.2.2.1 ▸ hd
  | clear h | settime h =>
    rw [Sys.goto_calls, Function.update_self] at hd
    generalize s.calls th = c at h
    cases h <;> cases hd
  | taken =>
    rw [allocFrom_calls, Function.update_self, allocCall_isDeinit] at hd
    cases hd
  | done | errReset | publish | started | stopped | zombie =>
    rw [Sys.done_calls, Function.update_self] at hd
    cases hd
  | claim | fill | create | createErr | initLock | errClose | setSched | unStopped | unLock | unUnlock =>
    rw [Sys.goto_calls, Function.update_self] at hd
    cases hd
  | deinitExit h | deinitTrigger h | deinitEvent h | deinitSkip h | deinitClose h | deinitReset h | deinitMutex h =>
    rw [h]
    rfl

/-- The uninstall of timer `t` sets `BIT_ZOMBIE`. -/
def Act.buries (s : Sys n m) (t : Fin n) : Act n m → Prop
  | .step th _ => s.calls th = .uninstall t .zombie
  | _ => False

/-- Only its uninstall makes a timer a zombie. -/
theorem Move.zombie_of {s' : Sys n m} {a : Act n m} (h : Move s a s') {i : Fin n} (ha : ¬a.buries s i)
    (hz : (s'.state i).has .zombie = true) : (s.state i).has .zombie = true := by
  cases h with
  | enter _ _ he => subst he; simpa using hz
  | claim => exact has_of_update rfl (by simp [bitAlloc]) i hz
  | errReset | deinitReset | reset => exact has_of_update rfl (by simp) i hz
  | publish => exact has_of_update rfl (by simp [bitUsed]) i hz
  | @clear _ _ t => exact has_of_update (j := t) rfl (by simp [bitActive, bitSched]) i hz
  | setSched | clearSched => exact has_of_update rfl (by simp [bitSched]) i hz
  | clearActive => exact has_of_update rfl (by simp [bitActive]) i hz
  | cas _ hc => exact has_of_update rfl (by simp [(has_of_maskCas hc).2]) i hz
  | @zombie th r t hc =>
    rcases eq_or_ne i t with rfl | hn
    · exact absurd hc ha
    · simpa [Function.update_of_ne hn] using hz
  | _ => exact hz

/-- Where `gabs_timer_ctx_deinit` is with a slot: before the `close` it is in use, before the `gabs_mutex_deinit` its
word has been reset. -/
def Call.cleaning : Call n → Option (Fin n × Bool)
  | .deinit (.close i) => some (i, true)
  | .deinit (.deinitLock i) => some (i, false)
  | _ => none

/-- **`deinit` cleans slots that are in use.** -/
def Closing (s : Sys n m) : Prop := ∀ th i b, (s.calls th).cleaning = some (i, b) → (s.state i).has .used = b

theorem isDeinit_of_cleaning {c : Call n} {x : Fin n × Bool} (h : c.cleaning = some x) : c.afterJoin = true := by
  unfold Call.cleaning at h
  split at h <;> first | rfl | cases h

theorem Closing.step {s' : Sys n m} {a : Act n m} (hi : Closing s) (ho : Own s) (hp : Linear s a) (h : Move s a s') :
    Closing s' := by
  intro th i b hc
  have haj := isDeinit_of_cleaning hc
  cases a with
  | tick | expire => cases h; exact hi th i b hc
  | work r =>
    rw [h.frame_calls] at haj
    exact absurd (ho.joined th haj) h.ne_exited
  | call th' op =>
    cases h with
    | enter _ _ he =>
      subst he
      rw [enter_calls, Function.update_apply] at haj
      split at haj
      · rw [first_afterJoin op] at haj
        cases haj
      · have := isDeinit_of_afterJoin haj
        rw [hp.open.2 th] at this
        cases this
  | step th' r =>
    have hf := h.frame_others
    have e : th = th' := by
      by_contra hn
      rw [hf.2 th hn] at haj
      exact hf.1 (ho.deinit th th' (isDeinit_of_afterJoin haj) (Ne.symm hn))
    subst e
    cases h with
    | goto h =>
      rw [Sys.goto_calls, Function.update_self] at hc
      cases h <;> cases hc
      assumption
    | clear h | settime h =>
      rw [Sys.goto_calls, Function.update_self] at hc
      generalize s.calls th = c at h
      cases h <;> cases hc
    | taken | deinitEvent | deinitSkip | deinitMutex =>
      simp only [allocFrom_calls, deinitFrom_calls, Function.update_self, allocCall, deinitCall] at hc
      split at hc <;> cases hc
    | deinitReset =>
      rw [Sys.goto_calls, Function.update_self] at hc
      cases hc
      simp
    | done | errReset | publish | started | stopped | zombie =>
      rw [Sys.done_calls, Function.update_self] at hc
      cases hc
    | claim | fill | create | createErr | initLock | errClose | setSched | unStopped | unLock | unUnlock | deinitExit
    | deinitTrigger | deinitClose =>
      rw [Sys.goto_calls, Function.update_self] at hc
      cases hc

/-- **Slots are owned in every reachable state.** -/
theorem own_of_reach (hr : (system n m).Reach Linear s) : Own s :=
  hr.invariant (fun _ h => .init h) fun _ _ _ _ hi hp h => hi.step hp (step_move h)

theorem closing_of_reach (hr : (system n m).Reach Linear s) : Closing s := by
  refine hr.invariant ?_ fun s a s' hr hi hp h => hi.step (own_of_reach hr) hp (step_move h)
  rintro s ⟨fd, -, rfl⟩ th i b h
  cases h

/-- A timer is installed by the `mask_set(BIT_USED)` of its install. -/
theorem Move.installed {s' : Sys n m} {a : Act n m} (h : Move s a s') {i : Fin n}
    (hu : (s'.state i).has .used = true) (hz : (s'.state i).has .zombie = false) :
    ((s.state i).has .used = true ∧ (s.state i).has .zombie = false) ∨
      ∃ th r cb arg, a = .step th r ∧ s.calls th = .install cb arg (.publish i) := by
  have hup : ∀ {k : Fin n} {w : Word}, s'.state = Function.update s.state k w →
      (w.has .used = true → w.has .zombie = false → (s.state k).has .used = true ∧ (s.state k).has .zombie = false) →
      (s.state i).has .used = true ∧ (s.state i).has .zombie = false := by
    intro k w hs hk
    rw [hs, Function.update_apply] at hu hz
    split at hu
    · rename_i e
      subst e
      rw [if_pos rfl] at hz
      exact hk hu hz
    · rename_i e
      rw [if_neg e] at hz
      exact ⟨hu, hz⟩
  cases h with
  | enter _ _ he => subst he; exact .inl ⟨by simpa using hu, by simpa using hz⟩
  | @publish th r cb arg k hc =>
    rcases eq_or_ne i k with rfl | hn
    · exact .inr ⟨th, r, cb, arg, rfl, hc⟩
    · simp only [Sys.done_state, Sys.setState_state, Function.update_of_ne hn] at hu hz
      exact .inl ⟨hu, hz⟩
  | claim => exact .inl (hup rfl (by simp +contextual [bitAlloc]))
  | errReset | deinitReset | reset => exact .inl (hup rfl (by simp))
  | @clear _ _ t => exact .inl (hup (k := t) rfl (by simp +contextual [bitActive, bitSched]))
  | setSched | clearSched => exact .inl (hup rfl (by simp +contextual [bitSched]))
  | clearActive => exact .inl (hup rfl (by simp +contextual [bitActive]))
  | zombie => exact .inl (hup rfl (by simp +contextual [bitZombie]))
  | cas _ hc => exact .inl (hup rfl (by simp +contextual [(has_of_maskCas hc).2]))
  | _ => exact .inl ⟨hu, hz⟩

end Gabs.Timer.Posix
