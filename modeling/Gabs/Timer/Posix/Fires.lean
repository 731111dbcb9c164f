import Gabs.Timer.Posix.Expiry
import Gabs.Timer.Posix.Leave
import Gabs.Timer.Posix.Lifecycle
import Gabs.Timer.Posix.Noticed

/-!
# The POSIX timer: started timers fire

- `Diligent`: the discipline of the runs: serial calls, successful settings, and a worker that is timely and attentive;
- `Waiting`: a timer is pledged an arming, and nobody is in a call;
- `Sys.tillFired`: the measure: the kernel has to make its timerfd readable, the worker has to read the eventfd as often
  as it was triggered, and to come round to the timer;
- `started_fires`: under a fair scheduler the callback of every started timer is started.
-/

namespace Gabs.Timer.Posix

open Gabs.Lib

variable {n m : Nat} {s s' : Sys n m} {i : Fin n}

/-! ## The discipline -/

/-- Calls are serial, settings succeed, and the worker is timely and attentive. -/
def Diligent (s : Sys n m) (a : Act n m) : Prop := Steady s a ∧ Attentive s a

instance (s : Sys n m) (a : Act n m) : Decidable (Diligent s a) := inferInstanceAs (Decidable (_ ∧ _))

/-- No function is entered, and no poll fails. -/
def Act.undisturbed : Act n m → Bool
  | .call _ _ => false
  | .work r => !r.isErr
  | _ => true

/-- Timer `i` is pledged the arming `a`, has a callback, and nobody is in a call. -/
structure Waiting (i : Fin n) (a : Nat) (x : (Sys n m × Arms n) × Pledges n) : Prop where
  pledge : x.2 i = some a
  cb : x.1.1.cb i ≠ none
  idle : ∀ th, x.1.1.calls th = .idle

theorem Waiting.step {x x' : (Sys n m × Arms n) × Pledges n} {a : Nat} {b : Act n m} (hi : Waiting i a x)
    (hb : b.undisturbed = true) (h : (pledges n m).step x b = some x') : Waiting i a x' := by
  obtain ⟨h1, h2⟩ := Lts.record_step h
  have hm := step_move (Lts.record_step h1).1
  have hcb : x'.1.1.cb i = x.1.1.cb i := hm.same_cb fun th hc => by
    rw [hi.idle] at hc
    cases hc
  have hcalls : x'.1.1.calls = x.1.1.calls ∧ x'.2 = x.2 := by
    rw [h2]
    cases b with
    | work r => exact ⟨hm.frame_calls, rfl⟩
    | call th op => cases hb
    | step th r => exact absurd (hi.idle th) hm.frame_others.1
    | expire fd | tick ns =>
      refine ⟨?_, rfl⟩
      generalize x'.1.1 = y at hm
      cases hm
      rfl
  constructor
  · rw [hcalls.2, hi.pledge]
  · rw [hcb]
    exact hi.cb
  · rw [hcalls.1]
    exact hi.idle

/-- **What is true of a timer that has not fired yet.** -/
structure Due (s : Sys n m) (i : Fin n) : Prop where
  facts : Facts s
  owns : s.Owns i
  alive : (s.state i).has .zombie = false
  bits : (s.state i).has .sched = true ∨ (s.state i).has .active = true
  untested : s.worker.tested i = true → (s.state i).has .active = false
  sched : (s.state i).has .sched = true → s.Pending i
  active : (s.state i).has .active = true → s.Pending i ∨ s.Serving i
  idle : ∀ th, s.calls th = .idle

section Reach

variable {x : (Sys n m × Arms n) × Pledges n} (hr : (pledges n m).Reach (fun x a => Diligent x.1.1 a) x)
include hr

theorem steady_of_pledges : (system n m).Reach Steady x.1.1 :=
  have hy : (arms n m).Reach (fun y a => Steady y.1 a) x.1 :=
    (hr.mono fun _ _ h => h.1).fst (P := fun (y : Sys n m × Arms n) a => Steady y.1 a)
  hy.fst (P := Steady)

theorem kept_of_pledges : Kept x.1.1 x.1.2 x.2 := kept_of_reach (hr.mono fun _ _ h => ⟨h.1.1, h.2⟩)

theorem Waiting.pledged {a : Nat} (hw : Waiting i a x) : Pledged x.1.1 x.1.2 x.2 i :=
  (kept_of_pledges hr).pledged i (by rw [hw.pledge]; rintro ⟨⟩)

theorem Waiting.due {a : Nat} (hw : Waiting i a x) (hn : some a ∉ x.1.2.fired) : Due x.1.1 i := by
  have hs := steady_of_pledges hr
  have hk := kept_of_pledges hr
  have hp := hw.pledged hr
  have hx := expiry_of_reach hs
  have hne : x.2 i ≠ none := by
    rw [hw.pledge]
    rintro ⟨⟩
  have hl : x.1.2.latest i = some a := hp.latest.symm.trans hw.pledge
  constructor
  · exact facts_of_reach (hs.mono fun _ _ h => h.1)
  · exact hp.owns
  · exact hp.alive
  · exact hk.bits i (.inl hne) (by rw [hl]; exact hn)
  · intro ht
    by_contra ha
    rcases hk.tested i ht (Bool.not_eq_false _ |>.mp ha) with h | h
    · rw [hl] at h
      exact hn h
    · exact hw.cb h
  · exact hx.sched i hp.owns
  · exact hx.active i hp.owns
  · exact hw.idle

end Reach

/-! ## The way of the worker to the timer -/

/-- The instant the timerfd of timer `i` is armed for. -/
def Sys.deadline (i : Fin n) (s : Sys n m) : Option Nat := (s.fds (s.fd i)).bind Timerfd.deadline

/-- The timerfd of timer `i` is armed. -/
def Sys.isArmed (i : Fin n) (s : Sys n m) : Bool := (s.deadline i).isSome

/-- A timer that is pending and not armed is readable. -/
theorem Sys.Pending.expired (h : s.Pending i) (hna : s.isArmed i = false) :
    (s.fds (s.fd i)).any Timerfd.expired = true := by
  unfold Sys.Pending at h
  unfold Sys.isArmed Sys.deadline at hna
  cases htf : s.fds (s.fd i) with
  | none =>
    rw [htf] at h
    cases h
  | some tf =>
    rw [htf] at h hna
    rw [Option.any_some] at h ⊢
    rw [Option.bind_some] at hna
    rw [hna, Bool.false_or] at h
    exact h

/-- The index of the first pollfd that is still to be read. -/
def Service.rest (j : Nat) : Service n → Nat
  | .head | .read => j
  | _ => j + 1

instance (t : Fin n) (p : Service n) : Decidable (p.reaches t) :=
  match p with
  | .valid i | .compare i => inferInstanceAs (Decidable (i ≤ t))
  | .alarm i _ => inferInstanceAs (Decidable (i = t))
  | .head | .read => instDecidableFalse

/-- The batch that is served will start the callback of timer `i`, unless it is set anew. -/
def Worker.Carries (s : Sys n m) (i : Fin n) : Worker n → Prop
  | .service j p => (∃ pfd ∈ s.pfds.drop (p.rest j), pfd.fd = s.fd i ∧ pfd.revents = .pollin) ∨
      (s.state i).has .active = true ∧ p.reaches i ∧ s.pfds[j]?.map Pollfd.fd = some (s.fd i)
  | _ => False

instance (s : Sys n m) (i : Fin n) (w : Worker n) : Decidable (w.Carries s i) :=
  match w with
  | .service _ _ => inferInstanceAs (Decidable (_ ∨ _))
  | .top | .prepare _ _ | .poll | .eventRead | .exited => instDecidableFalse

/-- The steps of a whole pass. -/
def passCost (n : Nat) : Nat := 3 + (1 + n) * serviceCost n + 9 * n + 9

/-- The steps of the worker before it is through with timer `i`. -/
def Sys.wait (i : Fin n) (s : Sys n m) : Nat :=
  match s.worker with
  | .top => passCost n
  | .service j p =>
    (if (Worker.service j p).Carries s i then 0 else passCost n) + (Worker.service j p).rank s.pfds.length
  | w => w.rank s.pfds.length

theorem wait_le (i : Fin n) (s : Sys n m) : s.wait i ≤ passCost n + s.worker.rank s.pfds.length := by
  unfold Sys.wait
  split
  · omega
  · rename_i h
    rw [h]
    split <;> omega
  · omega

theorem wait_of_fills (h : s.worker.fills = true) : s.wait i = s.worker.rank s.pfds.length := by
  unfold Sys.wait
  split
  · rename_i e
    rw [e] at h
    cases h
  · rename_i e
    rw [e] at h
    cases h
  · rfl

theorem wait_of_carries (h : s.worker.Carries s i) : s.wait i = s.worker.rank s.pfds.length := by
  unfold Sys.wait
  split
  · rename_i e
    rw [e] at h
    cases h
  · rename_i e
    rw [e] at h
    rw [e, if_pos h, Nat.zero_add]
  · rfl

theorem prepareFrom_fills (k : Nat) : (prepareFrom n k).fills = true := by
  unfold prepareFrom
  split <;> rfl

/-- From a slot the worker goes on to a slot, or to the poll. -/
theorem Move.fills {r : Reply} (h : Move s (.work r) s') {k : Fin n} {p : Prepare} (hw : s.worker = .prepare k p) :
    s'.worker.fills = true := by
  cases h with
  | work hm =>
    cases hm with
    | unused | noCas => exact prepareFrom_fills _
    | used | zombie | alive | active | inactive => rfl
    | exit h | pollErr h | batchEnd h | quiet h | ready h | valid h | invalid h | found h | other h | noCb h | enter h
    | fire h | skip h | ret h =>
      rw [hw] at h
      cases h
  | deinitLock | clearSched => exact prepareFrom_fills _
  | close | reset | cas | push => rfl
  | pass h | pollEvent h | pollTimers h | eventRead h | read h | lock h | unlock h | clearActive h =>
    rw [hw] at h
    cases h

/-- Only the `read` of the eventfd takes a trigger. -/
theorem Move.count {r : Reply} (h : Move s (.work r) s') (hw : s.worker ≠ .eventRead) :
    s'.eventCount = s.eventCount := by
  cases h with
  | eventRead h => exact absurd h hw
  | _ => rfl

theorem mem_drop_succ {α : Type} {l : List α} {j : Nat} {x y : α} (h : l[j]? = some y) (hm : x ∈ l.drop j) :
    x = y ∨ x ∈ l.drop (j + 1) := by
  obtain ⟨hlt, rfl⟩ := List.getElem?_eq_some_iff.mp h
  rw [List.drop_eq_getElem_cons hlt] at hm
  exact List.mem_cons.mp hm

/-- In the service of a timer the worker stays active for it. -/
theorem Due.still {r : Reply} (hd : Due s i) (h : Move s (.work r) s') {j : Nat} {p : Service n}
    (hw : s.worker = .service j p) (ha : (s.state i).has .active = true) : (s'.state i).has .active = true := by
  cases h.signal i with
  | same _ e => rw [e, ha]
  | clearSched _ _ e => rw [e, ha]
  | cas _ _ _ _ e => exact e
  | clearActive hw' =>
    have := hd.untested (by rw [hw']; exact decide_eq_true rfl)
    rw [ha] at this
    cases this
  | zero _ hz =>
    rcases hz with hc | ⟨th, hc⟩ | ⟨th, hc⟩
    · rw [hw] at hc
      cases hc
    · rw [hd.idle] at hc
      cases hc
    · rw [hd.idle] at hc
      cases hc

/-- **The batch keeps its promise.** -/
theorem Due.carries {r : Reply} (hd : Due s i) (hna : s.isArmed i = false) (ht : Timely s (.work r))
    (h : Move s (.work r) s') (hc : s.worker.Carries s i) : s'.worker.Carries s' i := by
  cases hw : s.worker with
  | service j p =>
    rw [hw] at hc
    rcases hc with ⟨pfd, hm, hfd, hrev⟩ | ⟨ha, hreach, hj⟩
    · -- The pollfd of the timer is still ahead, or it is the one to be read now.
      have hahead : ∀ {j' : Nat} {p' : Service n}, s'.worker = .service j' p' → pfd ∈ s'.pfds.drop (p'.rest j') →
          s'.fd = s.fd → s'.worker.Carries s' i := fun hw' hm' hf => by
        rw [hw']
        exact .inl ⟨pfd, hm', by rw [hf]; exact hfd, hrev⟩
      have hfind : ∀ k, pfd ∈ s'.pfds.drop (j + 1) → s'.fd = s.fd → s'.worker = findFrom n j k →
          s'.worker.Carries s' i := fun k hm' hf hw' => by
        unfold findFrom at hw'
        split at hw'
        · exact hahead hw' hm' hf
        · exact hahead hw' hm' hf
      cases h with
      | work hmove =>
        cases hmove with
        | @batchEnd j' _ hw' hj' =>
          cases hw.symm.trans hw'
          rw [List.getElem?_eq_none_iff] at hj'
          rw [List.drop_eq_nil_of_le] at hm
          · cases hm
          · cases p <;> simp only [Service.rest] <;> omega
        | @quiet _ pfd' hw' hj' hr =>
          cases hw.symm.trans hw'
          rcases mem_drop_succ hj' hm with rfl | hm'
          · rw [hrev] at hr
            cases hr
          · exact hahead rfl hm' rfl
        | ready hw' | valid hw' | found hw' | noCb hw' | enter hw' | fire hw' | skip hw' | ret hw' =>
          cases hw.symm.trans hw'
          exact hahead rfl hm rfl
        | invalid hw' | other hw' =>
          cases hw.symm.trans hw'
          exact hfind _ hm rfl rfl
        | exit hw' | unused hw' | used hw' | zombie hw' | alive hw' | active hw' | inactive hw' | noCas hw'
        | pollErr hw' =>
          cases hw.symm.trans hw'
      | @read _ j' pfd' hw' hj' =>
        cases hw.symm.trans hw'
        rcases mem_drop_succ hj' hm with rfl | hm'
        · cases hact : (s.state i).has .active with
          | true =>
            obtain ⟨p', hp', hreach⟩ := findFrom_reaches (j := j) (t := i) (Nat.zero_le _)
            rw [Sys.work_worker, if_pos hrev, hp']
            exact .inr ⟨hact, hreach, by simp [hj', hfd]⟩
          | false =>
            -- An expiration that the worker has not taken over is not read.
            have hsched := hd.bits.resolve_right (by rw [hact]; exact Bool.false_ne_true)
            exact absurd ⟨hact, .inl hsched, (hd.sched hsched).expired hna⟩ (ht.read rfl hw hj' hfd)
        · by_cases hr : pfd'.revents = .pollin
          · exact hfind 0 hm' rfl (by rw [Sys.work_worker, if_pos hr])
          · exact hfind n hm' rfl (by rw [Sys.work_worker, if_neg hr, findFrom, dif_neg (lt_irrefl n)])
      | lock hw' | unlock hw' | clearActive hw' =>
        cases hw.symm.trans hw'
        exact hahead rfl hm rfl
      | pass hw' | close hw' | reset hw' | deinitLock hw' | cas hw' | push hw' | clearSched hw' | pollEvent hw'
      | pollTimers hw' | eventRead hw' => cases hw.symm.trans hw'
    · obtain ⟨pfd, hj, hfd⟩ := Option.map_eq_some_iff.mp hj
      have ha' := hd.still h hw ha
      have hserv : s.Serving i := ⟨j, p, pfd, hw, hj, hfd, hreach⟩
      obtain ⟨j', p', pfd', hw', hj', hfd', hreach'⟩ :=
        hserv.work h hd.facts.own hd.facts.descriptors hd.owns ⟨hd.owns.1, hd.alive⟩ ha'
      rw [hw']
      exact .inr ⟨ha', hreach', by rw [hj', ← hfd']; rfl⟩
  | top | prepare | poll | eventRead | exited =>
    rw [hw] at hc
    cases hc

/-! ## The poll -/

/-- A timer that is waited for is polled, or the eventfd has been triggered. -/
theorem Due.polled (hd : Due s i) (hna : s.isArmed i = false) (hnot : Noticed s) (hpu : Pushed s)
    (ho : s.eventOpen = true) (hw : s.worker = .poll) :
    s.eventCount ≠ 0 ∨ ∃ pfd ∈ s.pfds, pfd.fd = s.fd i ∧ s.ready pfd.fd = .pollin := by
  have hpast : s.worker.past i = true := by
    rw [hw]
    rfl
  rcases hd.bits with hs | ha
  · refine (hnot i hpast hs).imp_right fun hc => ?_
    obtain ⟨th, hc⟩ := hc
    rw [hd.idle] at hc
    cases hc
  · right
    obtain ⟨pfd, hm, hfd⟩ := hpu i (.inl hpast) ha
    have hpend : s.Pending i := (hd.active ha).resolve_right fun hserv => by
      obtain ⟨j, p, pfd, hw', -⟩ := hserv
      rw [hw] at hw'
      cases hw'
    have hopen := hd.facts.descriptors.opened i (.inl hd.owns)
    have hne : s.fd i ≠ s.eventfd := fun e => by
      rw [e] at hopen
      exact hopen.2 (hd.facts.descriptors.event ho)
    obtain ⟨tf, htf, hexp⟩ := (Option.any_eq_true _ _).mp (hpend.expired hna)
    refine ⟨pfd, hm, hfd, ?_⟩
    rw [hfd, Sys.ready, if_neg fun h => hne h.2, htf]
    exact if_pos hexp

/-- The worker reads the eventfd, or serves the timer. -/
theorem Due.poll (hd : Due s i) (hna : s.isArmed i = false) (hnot : Noticed s) (hpu : Pushed s) (haw : Awake s)
    (ho : s.eventOpen = true) (hw : s.worker = .poll) {r : Reply} (hr : r.isErr = false) (h : pollStep s r = some s') :
    s'.worker = .eventRead ∨ s'.worker.Carries s' i := by
  simp only [pollStep, hr, Bool.false_eq_true, if_false] at h
  split at h
  · cases h
  · cases h
    rw [Sys.work_worker]
    split
    · right
      rename_i hfirst
      rcases hd.polled hna hnot hpu ho hw with hcount | ⟨pfd, hm, hfd, hready⟩
      · obtain ⟨p, ps, hp, hready⟩ := haw.ready ho (by rw [hw]; rfl)
        rw [hp] at hfirst
        simp [hready, hcount] at hfirst
      · exact .inl ⟨_, List.mem_map_of_mem hm, hfd, hready⟩
    · exact .inl rfl

/-! ## The measure -/

/-- **Every step of the worker brings the timer nearer to its callback.** -/
theorem Due.nearer (hd : Due s i) (hna : s.isArmed i = false) (hnot : Noticed s) (hpu : Pushed s) (haw : Awake s)
    (ho : s.worker ≠ .exited → s.eventOpen = true) {r : Reply} (hr : r.isErr = false) (ht : Timely s (.work r))
    (h : workerStep s r = some s') :
    s'.eventCount < s.eventCount ∨ s'.eventCount = s.eventCount ∧ s'.wait i < s.wait i := by
  have hm := workerStep_move h
  cases hw : s.worker with
  | top =>
    refine .inr ⟨hm.count (by rw [hw]; rintro ⟨⟩), ?_⟩
    have hwait : s.wait i = passCost n := by rw [Sys.wait, hw]
    rw [hwait]
    unfold workerStep at h
    rw [hw] at h
    simp only at h
    split at h <;> cases h
    · simp only [Sys.wait, Sys.work_worker, Worker.rank, passCost]
      omega
    · rw [wait_of_fills (prepareFrom_fills 0)]
      have hle := rank_prepareFrom (n := n) 1 0
      simp only [Sys.work_worker, Sys.work_pfds, Sys.setPfds_pfds, List.length_singleton, passCost,
        Nat.sub_zero] at hle ⊢
      omega
  | prepare k p =>
    refine .inr ⟨hm.count (by rw [hw]; rintro ⟨⟩), ?_⟩
    rw [wait_of_fills (hm.fills hw), wait_of_fills (by rw [hw]; rfl)]
    exact hm.rank fun e => by rw [hw] at e; cases e
  | poll =>
    refine .inr ⟨hm.count (by rw [hw]; rintro ⟨⟩), ?_⟩
    have hrank := hm.rank fun e => by rw [hw] at e; cases e
    rw [wait_of_fills (s := s) (by rw [hw]; rfl)]
    have hwait : s'.wait i = s'.worker.rank s'.pfds.length := by
      unfold workerStep at h
      rw [hw] at h
      rcases hd.poll hna hnot hpu haw (ho (by rw [hw]; rintro ⟨⟩)) hw hr h with e | hc
      · rw [Sys.wait, e]
      · exact wait_of_carries hc
    rw [hwait]
    exact hrank
  | eventRead =>
    left
    unfold workerStep at h
    rw [hw] at h
    simp only at h
    split at h
    · cases h
    · cases h
      rw [Sys.work_eventCount, Sys.setCount_eventCount]
      omega
  | service j p =>
    refine .inr ⟨hm.count (by rw [hw]; rintro ⟨⟩), ?_⟩
    have hrank := hm.rank fun e => by rw [hw] at e; cases e
    by_cases hc : s.worker.Carries s i
    · rw [wait_of_carries hc, wait_of_carries (hd.carries hna ht hm hc)]
      exact hrank
    · have hwait : s.wait i = passCost n + s.worker.rank s.pfds.length := by
        rw [hw] at hc
        simp only [Sys.wait, hw, if_neg hc]
      have hle := wait_le i s'
      omega
  | exited =>
    unfold workerStep at h
    rw [hw] at h
    cases h

/-- **The worker can make a step.** -/
theorem Due.works (hd : Due s i) (hna : s.isArmed i = false) (hnot : Noticed s) (hpu : Pushed s) (haw : Awake s)
    (hs : Signalled s) (hl : Held s) (hne : s.worker ≠ .exited) : s.Works := by
  rcases works_or_waits haw hne with h | hwait
  · exact h
  · exfalso
    cases hwait with
    | event hw hnone =>
      rcases hd.polled hna hnot hpu (hs hne) hw with hcount | ⟨pfd, hm, -, hready⟩
      · obtain ⟨p, ps, hp, hready⟩ := haw.ready (hs hne) (by rw [hw]; rfl)
        have hquiet := hnone p (by rw [hp]; exact List.mem_cons_self)
        rw [hready, if_neg hcount] at hquiet
        cases hquiet
      · have hquiet := hnone pfd hm
        rw [hready] at hquiet
        cases hquiet
    | @lock _ k th hw hlock =>
      rcases hl k th hlock with ⟨-, h⟩ | ⟨h, -⟩
      · rw [hw] at h
        cases h
      · rw [hd.idle] at h
        cases h
    | callback _ hc => exact hc (hd.idle _)

/-- The worker exits when it is told to. -/
theorem Move.exits {r : Reply} (h : Move s (.work r) s') (hw : s'.worker = .exited) : s.workState = .exit := by
  have hprep : ∀ k, prepareFrom n k ≠ .exited := by
    intro k
    unfold prepareFrom
    split <;> rintro ⟨⟩
  have hfind : ∀ j k, findFrom n j k ≠ .exited := by
    intro j k
    unfold findFrom
    split <;> rintro ⟨⟩
  cases h with
  | work hm =>
    rw [Sys.work_worker] at hw
    subst hw
    generalize hw : Worker.exited = w at hm
    cases hm with
    | exit _ he => exact he
    | unused | noCas => exact absurd hw.symm (hprep _)
    | invalid | other => exact absurd hw.symm (hfind _ _)
    | _ => cases hw
  | pass | deinitLock | clearSched => exact absurd hw (hprep _)
  | read =>
    rw [Sys.work_worker] at hw
    split at hw
    · exact absurd hw (hfind _ _)
    · cases hw
  | close | reset | cas | push | pollEvent | pollTimers | eventRead | lock | unlock | clearActive => cases hw

theorem exited_of_reach {P : Sys n m → Act n m → Prop} (hr : (system n m).Reach P s) (hw : s.worker = .exited) :
    s.workState = .exit := by
  refine hr.invariant (I := fun s => s.worker = .exited → s.workState = .exit) ?_ ?_ hw
  · rintro s ⟨fd, -, rfl⟩ ⟨⟩
  · intro s a s' _ hi _ hst hw
    have h := step_move hst
    cases a with
    | work r =>
      rw [h.wakes.1]
      exact h.exits hw
    | step th r => exact h.triggers.2 (hi ((h.frame_worker (by simp)).1 ▸ hw))
    | call th op =>
      cases h with
      | enter _ _ he =>
        subst he
        rw [enter_workState]
        exact hi (enter_worker .. ▸ hw)
    | expire | tick =>
      cases h
      exact hi hw

/-- The worker has not exited while a timer is waited for. -/
theorem Due.running (hd : Due s i) (hr : (system n m).Reach Exclusive s) : s.worker ≠ .exited := by
  intro hw
  have hzero : s.state i = 0 := by
    rcases (finishing_of_reach hr).final (exited_of_reach hr hw) with ⟨th, h⟩ | ⟨-, -, hz⟩
    · rw [hd.idle] at h
      cases h
    · exact hz i
  have hused := hd.owns.1
  rw [hzero] at hused
  exact absurd hused (Bool.eq_false_iff.mp (has_zero _))

/-- The worker leaves the setting of the timer alone. -/
theorem Due.same_deadline {r : Reply} (hd : Due s i) (h : Move s (.work r) s') (hh : s'.Holds i) :
    s'.deadline i = s.deadline i := by
  have hf := hd.facts
  have hfd : s'.fd i = s.fd i := h.same_fd fun th hc => by
    rw [hd.idle] at hc
    cases hc
  unfold Sys.deadline
  rw [hfd]
  cases h.setting hf.own hf.closing hf.descriptors hf.handles (.inl hd.owns) with
  | same e => rw [e]
  | close hn => exact absurd hh hn
  | read _ _ _ e =>
    rw [e]
    cases s.fds (s.fd i) <;> rfl

/-! ## Fair runs -/

/-- What is left before the callback of timer `i` is started. -/
def Sys.tillFired (i : Fin n) (s : Sys n m) : Nat × Nat × Nat :=
  if s.isArmed i then (1, 0, 0) else (0, s.eventCount, s.wait i)

/-- What brings a timer on: the kernel makes its timerfd `fd` readable, or the worker makes a step. -/
def Sys.CanMove (fd : Int) (kernel : Bool) (s : Sys n m) : Prop :=
  if kernel then ∃ s', expireStep s fd = some s' else s.Works

def Act.moves (fd : Int) (kernel : Bool) (b : Act n m) : Prop := if kernel then b = .expire fd else b.isWork

/-- The order of the measure. -/
def fewer : Nat × Nat × Nat → Nat × Nat × Nat → Prop := Prod.Lex (· < ·) (Prod.Lex (· < ·) (· < ·))

theorem fewer_wf : WellFounded fewer :=
  WellFounded.prod_lex Nat.lt_wfRel.wf (WellFounded.prod_lex Nat.lt_wfRel.wf Nat.lt_wfRel.wf)

/-- The deadline that the timerfd of timer `i` is armed for has passed. -/
def Sys.Overdue (i : Fin n) (s : Sys n m) : Prop := ∀ d, s.deadline i = some d → d ≤ s.clock

/-- While the timer is waited for, one of them can make a step. -/
theorem Due.canMove (hd : Due s i) (hr : (system n m).Reach Serial s) (ho : s.Overdue i) :
    s.CanMove (s.fd i) (s.isArmed i) := by
  have hl := hr.mono fun _ _ h => h.1.1
  unfold Sys.CanMove
  split
  · rename_i ha
    obtain ⟨d, hdl⟩ := Option.isSome_iff_exists.mp ha
    obtain ⟨⟨deadline, expired⟩, htf, hdl'⟩ := Option.bind_eq_some_iff.mp hdl
    cases hdl'
    refine ⟨s.setTfd (s.fd i) (some ⟨none, true⟩), ?_⟩
    simp only [expireStep, htf]
    exact if_pos (ho d hdl)
  · rename_i hna
    exact hd.works (Bool.eq_false_iff.mpr hna) (noticed_of_reach hr) (pushed_of_reach hr) (awake_of_reach hl)
      (signalled_of_reach hl) (held_of_reach hl) (hd.running (hr.mono fun _ _ h => h.1))

/-- The timerfd is not set anew. -/
theorem Due.deadline {b : Act n m} (hd : Due s i) (hb : b.undisturbed = true) (hh : s'.Holds i) (h : Move s b s') :
    s'.deadline i = s.deadline i ∨ s'.deadline i = none := by
  cases b with
  | call th op => cases hb
  | step th r => exact absurd (hd.idle th) h.frame_others.1
  | work r => exact .inl (hd.same_deadline h hh)
  | tick ns =>
    cases h
    exact .inl rfl
  | expire fd =>
    cases h
    unfold Sys.deadline
    rw [Sys.setTfd_fds, Sys.setTfd_fd, Function.update_apply]
    split
    · exact .inr rfl
    · exact .inl rfl

/-- **One step.** -/
theorem Due.advances {b : Act n m} (hd : Due s i) (hr : (system n m).Reach Serial s) (hp : Diligent s b)
    (hb : b.undisturbed = true) (hh : s'.Holds i) (h : step s b = some s') :
    Lts.Advances fewer (Sys.tillFired i) (Sys.isArmed i) (Act.moves (s.fd i)) s b s' := by
  have hl := hr.mono fun _ _ h => h.1.1
  have hm := step_move h
  unfold Lts.Advances
  cases b with
  | call th op => cases hb
  | step th r => exact absurd (hd.idle th) hm.frame_others.1
  | tick ns =>
    cases hm
    refine .inr ⟨rfl, rfl, ?_⟩
    unfold Act.moves
    split
    · rintro ⟨⟩
    · exact id
  | expire fd =>
    cases hm with
    | expire hf hle =>
      by_cases he : fd = s.fd i
      · subst he
        have ha : s.isArmed i = true := by simp [Sys.isArmed, Sys.deadline, hf]
        have hnone : (s.setTfd (s.fd i) (some ⟨none, true⟩)).deadline i = none := by simp [Sys.deadline]
        left
        unfold Sys.tillFired
        rw [ha, Sys.isArmed, hnone]
        exact Prod.Lex.left _ _ (by decide)
      · have hsame : (s.setTfd fd (some ⟨none, true⟩)).deadline i = s.deadline i := by
          unfold Sys.deadline
          rw [Sys.setTfd_fds, Sys.setTfd_fd, Function.update_of_ne (Ne.symm he)]
        refine .inr ⟨?_, congrArg Option.isSome hsame, ?_⟩
        · unfold Sys.tillFired Sys.isArmed
          rw [hsame]
          rfl
        · unfold Act.moves
          split
          · rintro ⟨⟩
            exact he rfl
          · exact id
  | work r =>
    have harmed : s'.isArmed i = s.isArmed i := congrArg Option.isSome (hd.same_deadline hm hh)
    cases ha : s.isArmed i with
    | true =>
      right
      unfold Sys.tillFired Act.moves
      rw [harmed, ha]
      exact ⟨rfl, rfl, by rintro ⟨⟩⟩
    | false =>
      left
      have hok : r.isErr = false := by simpa [Act.undisturbed] using hb
      unfold Sys.tillFired
      rw [harmed, ha]
      apply Prod.Lex.right
      rcases hd.nearer ha (noticed_of_reach hr) (pushed_of_reach hr) (awake_of_reach hl) (signalled_of_reach hl) hok
        hp.1.2.2 h with hless | ⟨heq, hless⟩
      · exact Prod.Lex.left _ _ hless
      · rw [heq]
        exact Prod.Lex.right _ hless

section Trace

variable {x x' : (Sys n m × Arms n) × Pledges n} {a : Nat} {b : Act n m}

theorem Waiting.same_fd (hi : Waiting i a x) (h : (pledges n m).step x b = some x') : x'.1.1.fd i = x.1.1.fd i :=
  (step_move (Lts.record_step (Lts.record_step h).1).1).same_fd fun th hc => by
    rw [hi.idle] at hc
    cases hc

theorem Waiting.holds (hi : Waiting i a x) (hr : (pledges n m).Reach (fun x a => Diligent x.1.1 a) x) : x.1.1.Holds i :=
  .inl (hi.pledged hr).owns

/-- A timer that is waited for, with the timerfd `fd`, which is overdue. -/
def Late (i : Fin n) (a : Nat) (fd : Int) (x : (Sys n m × Arms n) × Pledges n) : Prop :=
  Waiting i a x ∧ x.1.1.Overdue i ∧ x.1.1.fd i = fd

theorem Late.canMove {fd : Int} (hi : Late i a fd x) (hr : (pledges n m).Reach (fun x a => Diligent x.1.1 a) x)
    (hn : some a ∉ x.1.2.fired) : x.1.1.CanMove fd (x.1.1.isArmed i) := by
  obtain ⟨hw, ho, rfl⟩ := hi
  exact (hw.due hr hn).canMove ((steady_of_pledges hr).mono fun _ _ h => h.1) ho

theorem Late.step {fd : Int} (hi : Late i a fd x) (hr : (pledges n m).Reach (fun x a => Diligent x.1.1 a) x)
    (hn : some a ∉ x.1.2.fired) (hp : Diligent x.1.1 b) (hb : b.undisturbed = true)
    (h : (pledges n m).step x b = some x') : Late i a fd x' ∧
      Lts.Advances fewer (fun x => x.1.1.tillFired i) (fun x => x.1.1.isArmed i) (Act.moves fd) x b x' := by
  obtain ⟨hw, ho, rfl⟩ := hi
  have hdue := hw.due hr hn
  have hw' := hw.step hb h
  have hh := hw'.holds (hr.step hp h)
  have hst := (Lts.record_step (Lts.record_step h).1).1
  have hs := (steady_of_pledges hr).mono fun _ _ h => h.1
  refine ⟨⟨hw', fun d hd => ?_, hw.same_fd h⟩, hdue.advances hs hp hb hh hst⟩
  rcases hdue.deadline hb hh (step_move hst) with e | e
  · exact (ho d (e ▸ hd)).trans (step_move hst).clock_le
  · rw [e] at hd
    cases hd

variable (t : (pledges n m).Trace fun x a => Diligent x.1.1 a) {k : Nat}
include t

theorem Waiting.kept (hw : Waiting i a (t.state k)) (hq : ∀ j, k ≤ j → (t.act j).undisturbed = true) {j : Nat}
    (hj : k ≤ j) : Waiting i a (t.state j) ∧ (t.state j).1.1.fd i = (t.state k).1.1.fd i :=
  t.kept (I := fun x => Waiting i a x ∧ x.1.1.fd i = (t.state k).1.1.fd i)
    (fun _ _ _ _ hi _ hb h => ⟨hi.1.step hb h, (hi.1.same_fd h).trans hi.2⟩) hq ⟨hw, rfl⟩ hj

/-- Once the timer has waited long enough it is late. -/
theorem Waiting.late (hw : Waiting i a (t.state k)) (hq : ∀ j, k ≤ j → (t.act j).undisturbed = true)
    (htime : ∀ T, ∃ j, T ≤ (t.state j).1.1.clock) (hnot : ∀ j, k ≤ j → some a ∉ (t.state j).1.2.fired) :
    ∃ l, k ≤ l ∧ Late i a ((t.state k).1.1.fd i) (t.state l) := by
  -- The clock reaches the deadline, which stays the same.
  obtain ⟨l, hl⟩ := htime (((t.state k).1.1.deadline i).getD 0)
  have hdeadline : ∀ j, k ≤ j → ∀ d, (t.state j).1.1.deadline i = some d → d ≤ ((t.state k).1.1.deadline i).getD 0 := by
    intro j hj
    induction j, hj using Nat.le_induction with
    | base =>
      intro d hd
      rw [hd, Option.getD_some]
    | succ j hj ih =>
      intro d hd
      have hdue := (hw.kept t hq hj).1.due (t.reach j) (hnot j hj)
      have hh := (hw.kept t hq (Nat.le_succ_of_le hj)).1.holds (t.reach (j + 1))
      have hm := step_move (Lts.record_step (Lts.record_step (t.step j)).1).1
      rcases hdue.deadline (hq j hj) hh hm with e | e
      · exact ih d (e ▸ hd)
      · rw [e] at hd
        cases hd
  have hclock : ((t.state k).1.1.deadline i).getD 0 ≤ (t.state (max k l)).1.1.clock :=
    t.kept (I := fun x => _ ≤ x.1.1.clock) (Q := fun _ => True)
      (fun _ _ _ _ hi _ _ h => hi.trans (step_move (Lts.record_step (Lts.record_step h).1).1).clock_le)
      (fun _ _ => True.intro) hl (Nat.le_max_right k l)
  have hkept := hw.kept t hq (Nat.le_max_left k l)
  exact ⟨max k l, Nat.le_max_left .., hkept.1,
    fun d hd => (hdeadline _ (Nat.le_max_left ..) d hd).trans hclock, hkept.2⟩

end Trace

/-- **Started timers fire.** Let a timer with a callback be pledged an arming, nobody be in a call or make one any more,
and no poll fail. If time goes on, and neither the worker nor the kernel, which makes the timerfd readable, is held up
for ever while it can make a step, the callback is started for that arming. -/
theorem started_fires (t : (pledges n m).Trace fun x a => Diligent x.1.1 a) {k a : Nat} (hw : Waiting i a (t.state k))
    (hq : ∀ j, k ≤ j → (t.act j).undisturbed = true) (htime : ∀ T, ∃ j, T ≤ (t.state j).1.1.clock)
    (hworker : t.Fair (fun x => x.1.1.Works) Act.isWork)
    (hkernel : t.Fair (fun x => ∃ s', expireStep x.1.1 ((t.state k).1.1.fd i) = some s')
      (· = .expire ((t.state k).1.1.fd i))) : ∃ j, k ≤ j ∧ some a ∈ (t.state j).1.2.fired := by
  by_contra hnever
  have hnot : ∀ j, k ≤ j → some a ∉ (t.state j).1.2.fired := fun j hj hf => hnever ⟨j, hj, hf⟩
  obtain ⟨l, hl, hlate⟩ := hw.late t hq htime hnot
  have hfair : ∀ kernel, t.Fair (fun x => x.1.1.CanMove ((t.state k).1.1.fd i) kernel)
      (Act.moves ((t.state k).1.1.fd i) kernel) := by
    intro kernel
    cases kernel
    · exact hworker
    · exact hkernel
  obtain ⟨j, hj, hf⟩ := t.eventually (G := fun x => some a ∈ x.1.2.fired) fewer_wf hfair
    (fun x hr hi hn => Late.canMove hi hr hn) (fun x b x' hr hi hn hp hb h => .inr (Late.step hi hr hn hp hb h))
    (fun j hj => hq j (hl.trans hj)) hlate
  exact hnot j (hl.trans hj) hf

/-- A timer is installed and restarted, its delay elapses, and it fires. -/
def firesOnce : List (Act 1 1) := firstPass ++ [Act.tick 1, .expire 4] ++ List.replicate 26 (Act.work .ok)

/-- The worker polls, nothing is ready, and the timerfd `4` is not armed. -/
def Sys.rests (s : Sys 1 1) : Prop :=
  s.worker = .poll ∧ (∀ p ∈ s.pfds, s.ready p.fd = .none) ∧ (s.fds 4).all (fun tf => tf.deadline.isNone) = true

instance (s : Sys 1 1) : Decidable s.rests := inferInstanceAs (Decidable (_ ∧ _ ∧ _))

theorem Sys.rests.not_works {s : Sys 1 1} (h : s.rests) : ¬s.Works := by
  rintro ⟨s', hs⟩
  have hall :
      (s.pfds.map fun p => { p with revents := s.ready p.fd }).all (fun p => p.revents = Revents.none) = true := by
    rw [List.all_map, List.all_eq_true]
    exact fun p hp => decide_eq_true (h.2.1 p hp)
  unfold workerStep at hs
  rw [h.1] at hs
  simp only [pollStep, Reply.isErr, Bool.false_eq_true, if_false, hall, if_true] at hs
  cases hs

theorem Sys.rests.not_expires {s : Sys 1 1} (h : s.rests) : ¬∃ s', expireStep s 4 = some s' := by
  rintro ⟨s', hs⟩
  unfold expireStep at hs
  split at hs
  · rename_i hf
    have := h.2.2
    rw [hf] at this
    cases this
  · cases hs

theorem started_fires_run : ∃ t : (pledges 1 1).Trace (fun x a => Diligent x.1.1 a), some 0 ∉ (t.state 11).1.2.fired ∧
    ∃ j, 11 ≤ j ∧ some 0 ∈ (t.state j).1.2.fired := by
  obtain ⟨x, he, hx⟩ := (Option.any_eq_true _ _).mp (show ((pledges 1 1).exec (fun x a => Diligent x.1.1 a)
    ((ctxInit 1 1 3, .empty), fun _ => none) firesOnce).any (fun x => decide x.1.1.rests) = true by decide)
  obtain ⟨t, htake, hact, hrest⟩ := Lts.exists_trace (M := pledges 1 1) (b := fun _ => .tick 1)
    (J := fun x => x.1.1.rests)
    (fun x hx => ⟨⟨⟨⟨⟨True.intro, True.intro⟩, True.intro⟩, True.intro, True.intro⟩, True.intro⟩, _, rfl, hx⟩)
    ⟨⟨⟨3, by decide, rfl⟩, rfl⟩, rfl⟩ he (of_decide_eq_true hx)
  have hwait : ((t.state 11).2 0 = some 0 ∧ (t.state 11).1.1.cb 0 ≠ none ∧ ∀ th, (t.state 11).1.1.calls th = .idle) ∧
      (t.state 11).1.1.fd 0 = 4 ∧ some 0 ∉ (t.state 11).1.2.fired := by
    have h : ((pledges 1 1).exec (fun x a => Diligent x.1.1 a) ((ctxInit 1 1 3, .empty), fun _ => none)
      (firesOnce.take 11)).all (fun x => decide ((x.2 0 = some 0 ∧ x.1.1.cb 0 ≠ none ∧ ∀ th, x.1.1.calls th = .idle) ∧
        x.1.1.fd 0 = 4 ∧ some 0 ∉ x.1.2.fired)) = true := by decide
    rw [htake 11 (by decide)] at h
    exact of_decide_eq_true h
  obtain ⟨⟨hp, hcb, hidle⟩, hfd, hnot⟩ := hwait
  refine ⟨t, hnot, started_fires t ⟨hp, hcb, hidle⟩ ?_ ?_ ?_ ?_⟩
  · intro j hj
    exact t.forall_act (fun _ => .tick 1) hact (Q := fun b => b.undisturbed = true) (by decide) (fun _ _ => rfl) hj
  · intro T
    have h : ∃ j, firesOnce.length ≤ j ∧ T ≤ (t.state j).1.1.clock := by
      induction T with
      | zero => exact ⟨_, Nat.le_refl _, Nat.zero_le _⟩
      | succ T ih =>
        obtain ⟨j, hj, hT⟩ := ih
        refine ⟨j + 1, Nat.le_succ_of_le hj, ?_⟩
        have hst := (Lts.record_step (Lts.record_step (t.step j)).1).1
        rw [hact j, List.getElem?_eq_none hj, Option.getD_none] at hst
        rw [← Option.some.inj hst]
        exact Nat.succ_le_succ hT
    obtain ⟨j, -, hT⟩ := h
    exact ⟨j, hT⟩
  · exact t.fair_of_rest (J := fun x => x.1.1.rests) hrest fun x hx => hx.not_works
  · rw [hfd]
    exact t.fair_of_rest (J := fun x => x.1.1.rests) hrest fun x hx => hx.not_expires

end Gabs.Timer.Posix
