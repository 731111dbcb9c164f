import Gabs.Lib.Fair
import Gabs.Timer.Posix.Progress

/-!
# The POSIX timer: `gabs_timer_ctx_deinit` returns

- `Worker.rank`: a bound on the steps the worker still makes when it has been told to exit;
- `Deinit.rank`: the same for `gabs_timer_ctx_deinit`;
- `deinit_returns`: under a fair scheduler every `gabs_timer_ctx_deinit` that has begun returns.
-/

namespace Gabs.Timer.Posix

open Gabs.Lib

variable {n m : Nat} {s s' : Sys n m}

/-! ## The worker's way out -/

/-- The steps of `service_pfds` on one pollfd. -/
def serviceCost (n : Nat) : Nat := 2 * n + 8

/-- The steps left on the pollfd at hand. -/
def Service.rank : Service n → Nat
  | .head => 2 * n + 8
  | .read => 2 * n + 7
  | .valid i => 2 * (n - i) + 6
  | .compare i => 2 * (n - i) + 5
  | .alarm _ .enter => 6
  | .alarm _ .lock => 5
  | .alarm _ .test => 4
  | .alarm _ .callback => 3
  | .alarm _ .unlock => 2
  | .alarm _ .clear => 1

/-- The steps left on the slot at hand. -/
def Prepare.rank : Prepare → Nat
  | .testUsed => 8
  | .testZombie => 7
  | .close | .testActive => 6
  | .reset | .cas => 5
  | .deinitLock | .push => 4
  | .clearSched => 3

/-- The slots whose pollfds may still be pushed. -/
def Prepare.ahead (i : Fin n) : Prepare → Nat
  | .clearSched => n - (i + 1)
  | _ => n - i

/-- The steps that are left of the loop when there are `l` entries in `pfds`. -/
def Worker.rank (l : Nat) : Worker n → Nat
  | .exited => 0
  | .top => 1
  | .eventRead => 2
  | .service j .head => 2 + (l - j) * serviceCost n
  | .service j p => 2 + (l - (j + 1)) * serviceCost n + p.rank
  | .poll => 3 + l * serviceCost n
  | .prepare i p => 3 + (l + p.ahead i) * serviceCost n + 9 * (n - i) + p.rank

/-- The rank of a position inside the service of a pollfd that is there. -/
theorem rank_service {l j : Nat} {p : Service n} (hj : j < l) :
    (Worker.service j p).rank l = 2 + (l - (j + 1)) * serviceCost n + p.rank := by
  cases p with
  | head =>
    have h : l - j = (l - (j + 1)) + 1 := by omega
    rw [Worker.rank, h, Nat.add_mul, Service.rank, serviceCost]
    omega
  | read | valid i | compare i | alarm i p => rfl

theorem rank_findFrom (l j k : Nat) :
    (findFrom n j k).rank l ≤ 2 + (l - (j + 1)) * serviceCost n + (2 * (n - k) + 6) := by
  unfold findFrom
  split
  · exact Nat.le_refl _
  · rw [Worker.rank]
    omega

theorem rank_prepareFrom (l k : Nat) :
    (prepareFrom n k).rank l ≤ 3 + (l + (n - k)) * serviceCost n + 9 * (n - k) + 8 := by
  unfold prepareFrom
  split
  · exact Nat.le_refl _
  · have : l * serviceCost n ≤ (l + (n - k)) * serviceCost n := Nat.mul_le_mul_right _ (Nat.le_add_right _ _)
    rw [Worker.rank]
    omega

/-- From a slot to the one after it. -/
theorem rank_prepareFrom_succ {l : Nat} {i : Fin n} {p : Prepare} :
    (prepareFrom n (i + 1)).rank l < (Worker.prepare i p).rank l := by
  have hle := rank_prepareFrom (n := n) l (i + 1)
  have hp : 3 ≤ p.rank := by cases p <;> decide
  have ha : (l + (n - (i + 1))) * serviceCost n ≤ (l + p.ahead i) * serviceCost n := by
    apply Nat.mul_le_mul_right
    cases p <;> simp only [Prepare.ahead] <;> omega
  rw [Worker.rank]
  omega

/-- A step that only moves the worker. -/
theorem WorkMove.rank {w : Worker n} (h : WorkMove s w) :
    w.rank s.pfds.length < s.worker.rank s.pfds.length := by
  cases h with
  | exit h | pollErr h =>
    rw [h]
    simp only [Worker.rank]
    omega
  | unused h | noCas h =>
    rw [h]
    exact rank_prepareFrom_succ
  | used h | zombie h | alive h | active h | inactive h =>
    rw [h]
    simp only [Worker.rank, Prepare.rank, Prepare.ahead]
    omega
  | @batchEnd j p h hj =>
    rw [h]
    cases p with
    | head =>
      simp only [Worker.rank]
      omega
    | read | valid i | compare i | alarm i p =>
      simp only [Worker.rank]
      omega
  | @quiet j _ h hj =>
    have hlt := lt_of_getElem? hj
    rw [h, rank_service hlt]
    simp only [Worker.rank, Service.rank]
    omega
  | ready h hj | valid h hj | found h hj | noCb h hj | enter h hj | fire h hj | skip h hj | ret h hj =>
    have hlt := lt_of_getElem? hj
    rw [h, rank_service hlt, rank_service hlt]
    simp only [Service.rank]
    omega
  | @invalid j i _ h hj | @other j i _ h hj =>
    have hlt := lt_of_getElem? hj
    have hle := rank_findFrom (n := n) s.pfds.length j (i + 1)
    rw [h, rank_service hlt]
    simp only [Service.rank]
    omega

/-- **Every step brings the worker nearer to its exit**, but for one that begins a pass. -/
theorem Move.rank {r : Reply} (h : Move s (.work r) s') (hw : s.worker = .top → s.workState = .exit) :
    s'.worker.rank s'.pfds.length < s.worker.rank s.pfds.length := by
  cases h with
  | work hm => exact hm.rank
  | pass hw' h =>
    rw [hw hw'] at h
    cases h
  | close h | reset h | cas h =>
    rw [h]
    simp only [Sys.work_worker, Sys.work_pfds, cleanupClose_pfds, cleanupReset_pfds, Sys.setState_pfds, Worker.rank,
      Prepare.rank, Prepare.ahead]
    omega
  | deinitLock h | clearSched h =>
    rw [h]
    exact rank_prepareFrom_succ
  | @push _ i h =>
    have hl : s.pfds.length + 1 + (n - (i + 1)) = s.pfds.length + (n - i) := by omega
    rw [h]
    simp only [Sys.work_worker, Sys.work_pfds, Sys.setPfds_pfds, List.length_append, List.length_singleton, Worker.rank,
      Prepare.rank, Prepare.ahead, hl]
    omega
  | pollEvent h hp =>
    subst hp
    rw [h]
    simp only [Sys.work_worker, Worker.rank]
    omega
  | pollTimers h hp =>
    subst hp
    rw [h]
    simp only [Sys.work_worker, Sys.work_pfds, Sys.setPfds_pfds, List.length_map, Worker.rank,
      Nat.sub_zero]
    omega
  | eventRead h =>
    rw [h]
    simp only [Sys.work_worker, Worker.rank]
    omega
  | @read _ j pfd h hj =>
    have hlt := lt_of_getElem? hj
    have hle := rank_findFrom (n := n) s.pfds.length j 0
    rw [h, rank_service hlt]
    simp only [Sys.work_worker, Sys.work_pfds, readFd_pfds, Service.rank]
    split
    · omega
    · simp only [Worker.rank]
      omega
  | lock h hj | unlock h hj =>
    have hlt := lt_of_getElem? hj
    rw [h, Sys.work_worker, Sys.work_pfds, Sys.setLock_pfds, rank_service hlt, rank_service hlt]
    simp only [Service.rank]
    omega
  | clearActive h hj =>
    rw [h, Sys.work_worker, Sys.work_pfds, Sys.setState_pfds, rank_service (lt_of_getElem? hj)]
    simp only [Worker.rank, Service.rank]
    omega

/-! ## The way through `deinit` -/

/-- The steps that are left of the loop over the slots. -/
def loopLeft (n k : Nat) : Nat := 4 * (n - k)

/-- The steps that are left of `gabs_timer_ctx_deinit`, the worker's apart. -/
def Deinit.rank : Deinit n → Nat
  | .exit => loopLeft n 0 + 4
  | .trigger => loopLeft n 0 + 3
  | .join => loopLeft n 0 + 2
  | .closeEvent => loopLeft n 0 + 1
  | .test i => loopLeft n i
  | .close i => loopLeft n i - 1
  | .reset i => loopLeft n i - 2
  | .deinitLock i => loopLeft n i - 3

/-- The same for a call. -/
def Call.rank : Call n → Nat
  | .deinit p => p.rank
  | _ => 0

/-- The `deinit` of thread `th` has returned, with success. -/
def Sys.Returned (s : Sys n m) (th : Thread m) : Prop := s.calls th = .idle ∧ s.ret th = some (.status 0)

/-- The loop goes on at slot `k`, or `deinit` returns. -/
theorem deinitFrom_rank (s : Sys n m) (th : Thread m) (k : Nat) : (deinitFrom s th k).Returned th ∨
    ((deinitFrom s th k).calls th).isDeinit = true ∧ ((deinitFrom s th k).calls th).rank = loopLeft n k := by
  unfold Sys.Returned
  rw [deinitFrom_calls, deinitFrom_ret, Function.update_self, deinitCall]
  split
  · exact .inr ⟨rfl, rfl⟩
  · rw [Function.update_self]
    exact .inl ⟨rfl, rfl⟩

/-- **Every step brings `deinit` nearer to its end.** -/
theorem deinit_rank {th : Thread m} {p : Deinit n} (h : ctxDeinitStep s th p = some s') :
    s'.Returned th ∨ (s'.calls th).isDeinit = true ∧ (s'.calls th).rank < p.rank := by
  have hgo : ∀ (s : Sys n m) (q : Deinit n), q.rank < p.rank → (s.goto th (.deinit q)).Returned th ∨
      ((s.goto th (.deinit q)).calls th).isDeinit = true ∧ ((s.goto th (.deinit q)).calls th).rank < p.rank := by
    intro s q hlt
    rw [Sys.goto_calls, Function.update_self]
    exact .inr ⟨rfl, hlt⟩
  have hloop : ∀ (s : Sys n m) (k : Nat), loopLeft n k < p.rank → (deinitFrom s th k).Returned th ∨
      ((deinitFrom s th k).calls th).isDeinit = true ∧ ((deinitFrom s th k).calls th).rank < p.rank := by
    intro s k hlt
    rcases deinitFrom_rank s th k with hr | ⟨hd, hl⟩
    · exact .inl hr
    · rw [hl]
      exact .inr ⟨hd, hlt⟩
  cases p with
  | exit | trigger =>
    cases h
    apply hgo
    simp only [Deinit.rank]
    omega
  | join =>
    simp only [ctxDeinitStep] at h
    split at h
    · cases h
      apply hgo
      simp only [Deinit.rank]
      omega
    · cases h
  | closeEvent =>
    cases h
    apply hloop
    simp only [Deinit.rank]
    omega
  | test i =>
    simp only [ctxDeinitStep] at h
    split at h <;> cases h
    · apply hgo
      simp only [Deinit.rank, loopLeft]
      omega
    · apply hloop
      simp only [Deinit.rank, loopLeft]
      omega
  | close i | reset i =>
    cases h
    apply hgo
    simp only [Deinit.rank, loopLeft]
    omega
  | deinitLock i =>
    cases h
    apply hloop
    simp only [Deinit.rank, loopLeft]
    omega

/-! ## Fair runs -/

/-- A step of the worker. -/
def Act.isWork : Act n m → Prop
  | .work _ => True
  | _ => False

/-- A step of the call of thread `th`. -/
def Act.isStep (th : Thread m) : Act n m → Prop
  | .step th' _ => th' = th
  | _ => False

/-- What is left before `deinit` returns: its own steps, then the steps of the worker it waits for. -/
def Sys.measure (th : Thread m) (s : Sys n m) : Nat × Nat :=
  ((s.calls th).rank, if s.calls th = .deinit .join then s.worker.rank s.pfds.length else 0)

/-- It waits for the worker. -/
def Sys.joins (th : Thread m) (s : Sys n m) : Bool := decide (s.calls th = .deinit .join ∧ s.worker ≠ .exited)

/-- Who brings `deinit` on: the worker it waits for, or its own thread. -/
def Sys.Enabled (th : Thread m) (waits : Bool) (s : Sys n m) : Prop := if waits then s.Works else s.Steps th

def Act.helps (th : Thread m) (waits : Bool) (a : Act n m) : Prop := if waits then a.isWork else a.isStep th

/-- While `deinit` is under way one of them can make a step. -/
theorem deinit_enabled {th : Thread m} (hr : (system n m).Reach Linear s) (hd : (s.calls th).isDeinit = true) :
    Sys.Enabled th (s.joins th) s := by
  unfold Sys.Enabled
  split
  · rename_i hw
    obtain ⟨hj, hw⟩ := of_decide_eq_true hw
    exact works_of_join (held_of_reach hr) (own_of_reach hr) (awake_of_reach hr) (signalled_of_reach hr) hj hw
  · rename_i hw
    refine (steps_or_blocks fun e => ?_).resolve_right fun hb => ?_
    · rw [e] at hd
      cases hd
    · cases hb with
      | lock e =>
        rw [e] at hd
        cases hd
      | join hj hne => exact hw (decide_eq_true ⟨hj, hne⟩)

/-- **One step.** -/
theorem deinit_advances {th : Thread m} {a : Act n m} (hr : (system n m).Reach Linear s)
    (hd : (s.calls th).isDeinit = true) (hp : Linear s a) (h : Move s a s') :
    s'.Returned th ∨ (s'.calls th).isDeinit = true ∧
      Lts.Advances (Prod.Lex (· < ·) (· < ·)) (Sys.measure th) (Sys.joins th) (Act.helps th) s a s' := by
  have ho := own_of_reach hr
  have hothers : ∀ th', th' ≠ th → s.calls th' = .idle := fun th' => ho.deinit th th' hd
  cases a with
  | call th' op =>
    have := hp.open.2 th
    rw [hd] at this
    cases this
  | step th' r =>
    have hth : th' = th := by
      by_contra hn
      exact h.frame_others.1 (hothers th' hn)
    subst hth
    cases hc : s.calls th' with
    | deinit p =>
      refine (deinit_rank (h.of_deinit hc)).imp_right fun hless => ⟨hless.1, .inl ?_⟩
      apply Prod.Lex.left
      rw [hc]
      exact hless.2
    | idle | install | uninstall | start | restart | stop | active =>
      rw [hc] at hd
      cases hd
  | work r =>
    have hc := h.frame_calls
    refine .inr ⟨by rw [hc]; exact hd, ?_⟩
    unfold Lts.Advances Sys.measure
    rw [hc]
    by_cases hj : s.calls th = .deinit .join
    · left
      rw [if_pos hj, if_pos hj]
      apply Prod.Lex.right
      exact h.rank fun _ => (awake_of_reach hr).told th hd (by rw [hj]; rintro ⟨⟩)
    · right
      rw [if_neg hj, if_neg hj]
      refine ⟨rfl, ?_, ?_⟩
      · simp [Sys.joins, hc, hj]
      · simp [Act.helps, Sys.joins, hj, Act.isStep]
  | expire | tick =>
    cases h
    refine .inr ⟨hd, .inr ⟨rfl, rfl, ?_⟩⟩
    unfold Act.helps
    split <;> exact id

/-- **`gabs_timer_ctx_deinit` returns**: if neither the worker nor the thread that makes the call is held up for ever
while it can make a step, the call, once begun, comes to its end, and returns `0`. -/
theorem deinit_returns (t : (system n m).Trace Linear) (th : Thread m) (hw : t.Fair Sys.Works Act.isWork)
    (hc : t.Fair (Sys.Steps · th) (Act.isStep th)) {k : Nat} (hd : ((t.state k).calls th).isDeinit = true) :
    ∃ j, k ≤ j ∧ (t.state j).calls th = .idle ∧ (t.state j).ret th = some (.status 0) := by
  have hfair : ∀ waits, t.Fair (Sys.Enabled th waits) (Act.helps th waits) := by
    intro waits
    cases waits
    · exact hc
    · exact hw
  have hwf : WellFounded (Prod.Lex (α := Nat) (β := Nat) (· < ·) (· < ·)) :=
    WellFounded.prod_lex Nat.lt_wfRel.wf Nat.lt_wfRel.wf
  exact t.eventually (I := fun s => (s.calls th).isDeinit = true) (G := fun s => s.Returned th) (Q := fun _ => True) hwf
    hfair (fun s hr hi _ => deinit_enabled hr hi)
    (fun s a s' hr hi _ hp _ h => deinit_advances hr hi hp (step_move h)) (fun _ _ => True.intro) hd

/-- The worker has begun a pass when `deinit` is called. -/
def leaveMidway : List (Act 1 1) :=
  let c : Thread 1 := .client 0
  [Act.work .ok, .call c .deinit, .step c .ok, .step c .ok, .work .ok, .work .ok, .work .ok, .work .ok, .step c .ok,
    .step c .ok, .step c .ok]

theorem deinit_returns_run : ∃ t : (system 1 1).Trace Linear, ∃ j, 2 ≤ j ∧ (t.state j).calls (.client 0) = .idle ∧
    (t.state j).ret (.client 0) = some (.status 0) := by
  obtain ⟨s', he, hq⟩ := (Option.any_eq_true _ _).mp (show ((system 1 1).exec Linear (ctxInit 1 1 3) leaveMidway).any
    (fun s => decide (s.calls (.client 0) = .idle ∧ s.worker = .exited)) = true by decide)
  obtain ⟨t, htake, -, hrest⟩ := Lts.exists_trace (M := system 1 1) (b := fun _ => .tick 0)
    (J := fun s => s.calls (.client 0) = .idle ∧ s.worker = .exited) (fun s hs => ⟨True.intro, s, rfl, hs⟩)
    ⟨3, by decide, rfl⟩ he (of_decide_eq_true hq)
  have hd : ((t.state 2).calls (.client 0)).isDeinit = true := by
    have h2 : ((system 1 1).exec Linear (ctxInit 1 1 3) (leaveMidway.take 2)).all
      (fun s => (s.calls (.client 0)).isDeinit) = true := by decide
    rw [htake 2 (by decide)] at h2
    exact h2
  refine ⟨t, deinit_returns t (.client 0) ?_ ?_ hd⟩
  · refine t.fair_of_rest (J := fun s => s.worker = .exited) (fun k hk => (hrest k hk).2) ?_
    rintro s hexit ⟨x, hx⟩
    unfold workerStep at hx
    rw [hexit] at hx
    cases hx
  · refine t.fair_of_rest (J := fun s => s.calls (.client 0) = .idle) (fun k hk => (hrest k hk).1) ?_
    rintro s hidle ⟨r, x, hx⟩
    unfold callStep at hx
    rw [hidle] at hx
    cases hx

end Gabs.Timer.Posix
