import Gabs.Timer.Posix.Descriptors

/-!
# The POSIX timer: events go to the right timer

- `Pushes`: for which timer each pollfd was pushed, where a timer is a slot and the number of its install;
- `Sys.lookup`: what `timer_from_fd` returns with a step of the worker;
- `Tagged`: what the pollfds stand for, and what a search has passed by;
- `lookup_right`: the timer of the pollfd is found, or nothing if it has been uninstalled; never another timer.
-/

namespace Gabs.Timer.Posix

open Gabs.Lib

variable {n m : Nat}

/-! ## The timers of the pollfds -/

/-- For each pollfd the slot it was pushed for and the number of the slot's install (`none` for the eventfd); how
often each slot has been installed; the install that an uninstall of the slot has ended. -/
structure Pushes (n : Nat) where
  timers : List (Option (Fin n × Nat))
  installs : Fin n → Nat
  uninstalled : Fin n → Option Nat

def Pushes.empty : Pushes n := ⟨[], fun _ => 0, fun _ => none⟩

/-- The history after one more step. -/
def Pushes.record (s : Sys n m) (a : Act n m) (_ : Sys n m) (g : Pushes n) : Pushes n :=
  match a with
  | .work _ => match s.worker with
    | .top => if s.workState = .exit then g else { g with timers := [none] }
    | .prepare i .push => { g with timers := g.timers ++ [some (i, g.installs i)] }
    | _ => g
  | .step th _ => match s.calls th with
    | .install _ _ (.publish i) => { g with installs := Function.update g.installs i (g.installs i + 1) }
    | .uninstall t .zombie => { g with uninstalled := Function.update g.uninstalled t (some (g.installs t)) }
    | _ => g
  | _ => g

/-- The system with the timers of the pollfds. -/
def pushes (n m : Nat) : Lts (Sys n m × Pushes n) (Act n m) := (system n m).record .empty Pushes.record

/-- What `timer_from_fd` returns with the worker's step from `s` to `s'`, if it returns: a slot, or `NULL`. -/
def Sys.lookup (s s' : Sys n m) : Option (Option (Fin n)) :=
  match s.worker, s'.worker with
  | .service _ (.compare i), .service _ (.alarm _ _) => some (some i)
  | .service _ (.compare _), .service _ .head | .service _ (.valid _), .service _ .head => some none
  | _, _ => none

/-! ## What the pollfds stand for -/

/-- `timer_from_fd` is at slot `i`, for the pollfd of index `j`. -/
def Worker.searches (j : Nat) (i : Fin n) (w : Worker n) : Prop :=
  w = .service j (.valid i) ∨ w = .service j (.compare i)

/-- **What the pollfds stand for**: the timers they were pushed for, which are still in their slots; a search has only
passed by such a timer if it was uninstalled. -/
structure Tagged (s : Sys n m) (g : Pushes n) : Prop where
  length : g.timers.length = s.pfds.length
  timer : s.worker.polls = true → ∀ (j : Nat) (pfd : Pollfd) (t : Fin n) (k : Nat),
    s.pfds[j]? = some pfd → g.timers[j]? = some (some (t, k)) →
    s.worker.passed t = true ∧ (s.state t).has .used = true ∧ s.fd t = pfd.fd ∧ g.installs t = k
  gone : ∀ t, (s.state t).has .zombie = true → g.uninstalled t = some (g.installs t)
  missed : ∀ j i t k, s.worker.searches j i → g.timers[j]? = some (some (t, k)) → t < i →
    (s.state t).has .zombie = true

variable {s s' : Sys n m} {g g' : Pushes n}

theorem Tagged.init (fd : Int) : Tagged (ctxInit n m fd) .empty := by
  refine ⟨rfl, nofun, fun t h => ?_, ?_⟩
  · simp [ctxInit] at h
  · rintro j i t k (h | h) <;> cases h

/-- A step that changes neither the pollfds nor the installs. -/
theorem Tagged.keep (hi : Tagged s g) (hp : s'.pfds.map Pollfd.fd = s.pfds.map Pollfd.fd)
    (hw : s'.worker.polls = true → s.worker.polls = true ∧
      ∀ t, s.worker.passed t = true → (s.state t).has .used = true →
        s'.worker.passed t = true ∧ (s'.state t).has .used = true ∧ s'.fd t = s.fd t)
    (hz : ∀ t, (s'.state t).has .zombie = true → (s.state t).has .zombie = true)
    (hm : ∀ j i t k, s'.worker.searches j i → g.timers[j]? = some (some (t, k)) → t < i →
      (s'.state t).has .zombie = true) : Tagged s' g := by
  have hlen : s'.pfds.length = s.pfds.length := by simpa using congrArg List.length hp
  refine ⟨hi.length.trans hlen.symm, fun h j pfd t k hj ht => ?_, fun t h => hi.gone t (hz t h), hm⟩
  obtain ⟨h1, h2⟩ := hw h
  obtain ⟨pfd', hj', he⟩ : ∃ pfd', s.pfds[j]? = some pfd' ∧ pfd'.fd = pfd.fd := by
    have := congrArg (fun l => l[j]?) hp
    simp only [List.getElem?_map, hj, Option.map_some] at this
    obtain ⟨pfd', h3, h4⟩ := Option.map_eq_some_iff.mp this.symm
    exact ⟨pfd', h3, h4⟩
  obtain ⟨h3, h4, h5, h6⟩ := hi.timer h1 j pfd' t k hj' ht
  obtain ⟨h7, h8, h9⟩ := h2 t h3 h4
  exact ⟨h7, h8, by rw [h9, h5, he], h6⟩

/-! ## The steps -/

theorem searches_prepareFrom {i : Fin n} {j k : Nat} : ¬(prepareFrom n k).searches j i := by
  unfold prepareFrom
  split <;> rintro (h | h) <;> cases h

theorem searches_findFrom {i : Fin n} {j j' k : Nat} (h : (findFrom n j k).searches j' i) : j' = j ∧ i = k := by
  unfold findFrom at h
  split at h <;> rcases h with h | h <;> cases h
  exact ⟨rfl, rfl⟩

/-- A search goes on behind a slot that is not valid or has another descriptor. -/
theorem Tagged.passBy (hi : Tagged s g) {j : Nat} {i : Fin n} {pfd : Pollfd} (hs : s.worker.searches j i)
    (hj : s.pfds[j]? = some pfd)
    (hno : (s.state i).has .used = true → s.fd i = pfd.fd → (s.state i).has .zombie = true) {t : Fin n} {k : Nat}
    (ht : g.timers[j]? = some (some (t, k))) (hlt : (t : Nat) < i + 1) : (s.state t).has .zombie = true := by
  by_cases hti : t < i
  · exact hi.missed j i t k hs ht hti
  · have he : t = i := Fin.ext (by rw [Fin.lt_def] at hti; omega)
    subst he
    have hpolls : s.worker.polls = true := by rcases hs with h | h <;> rw [h] <;> rfl
    obtain ⟨-, h1, h2, -⟩ := hi.timer hpolls j pfd t k hj ht
    exact hno h1 h2

/-- What a search has passed by, after one step of the worker. -/
theorem Tagged.searched (hi : Tagged s g) {r : Reply} (h : Move s (.work r) s') {j : Nat} {i t : Fin n} {k : Nat}
    (hs : s'.worker.searches j i) (ht : g.timers[j]? = some (some (t, k))) (hlt : t < i) :
    (s'.state t).has .zombie = true := by
  cases h with
  | work hm =>
    rw [Sys.work_worker] at hs
    cases hm with
    | unused | noCas => exact absurd hs searches_prepareFrom
    | valid hw =>
      rcases hs with e | e <;> cases e
      exact hi.missed _ _ t k (.inl hw) ht hlt
    | @invalid j' i' pfd hw hj hno =>
      obtain ⟨rfl, he⟩ := searches_findFrom hs
      refine hi.passBy (.inl hw) hj (fun hu _ => ?_) ht (by rw [Fin.lt_def] at hlt; omega)
      rw [not_and, Bool.not_eq_false] at hno
      exact hno hu
    | @other j' i' pfd hw hj hne =>
      obtain ⟨rfl, he⟩ := searches_findFrom hs
      exact hi.passBy (.inr hw) hj (fun _ e => absurd e hne) ht (by rw [Fin.lt_def] at hlt; omega)
    | _ => rcases hs with e | e <;> cases e
  | read =>
    -- A search begins at the first slot.
    rw [Sys.work_worker] at hs
    split at hs
    · have hfirst := (searches_findFrom hs).2
      rw [Fin.lt_def] at hlt
      omega
    · rcases hs with e | e <;> cases e
  | pass | deinitLock | clearSched => exact absurd hs searches_prepareFrom
  | push | pollEvent | pollTimers | eventRead | close | reset | cas | lock | unlock | clearActive =>
    rcases hs with e | e <;> cases e

theorem getElem?_snoc {α : Type} {l : List α} {a b : α} {j : Nat} (h : (l ++ [a])[j]? = some b) :
    j < l.length ∧ l[j]? = some b ∨ j = l.length ∧ b = a := by
  rw [List.getElem?_append] at h
  split at h
  · rename_i hlt; exact .inl ⟨hlt, h⟩
  · rename_i hge
    obtain ⟨h1, h2⟩ := List.getElem?_eq_some_iff.mp h
    rw [List.length_singleton] at h1
    exact .inr ⟨by omega, by simpa using h2.symm⟩

/-- One step of the worker. -/
theorem Tagged.work {r : Reply} (hi : Tagged s g) (ho : Own s) (h : Move s (.work r) s') :
    Tagged s' (g.record s (.work r) s') := by
  have hsearched := fun j i t k => hi.searched h (j := j) (i := i) (t := t) (k := k)
  cases h.pfds with
  | pass hw hn e =>
    have hg : g.record s (.work r) s' = { g with timers := [none] } := by simp [Pushes.record, hw, hn]
    rw [hg]
    subst e
    refine ⟨rfl, fun _ j pfd t k _ ht => ?_, hi.gone, fun j i t k hs => absurd hs searches_prepareFrom⟩
    rcases j with _ | j <;> simp at ht
  | push k hw e =>
    subst e
    simp only [Pushes.record, hw]
    refine ⟨by simp [hi.length], fun _ j pfd t k hj ht => ?_, hi.gone, by rintro j i t k (h | h) <;> cases h⟩
    rcases getElem?_snoc hj with ⟨hlt, hj⟩ | ⟨rfl, rfl⟩ <;> rcases getElem?_snoc ht with ⟨hlt', ht⟩ | ⟨he, he'⟩
    · obtain ⟨h1, h2⟩ := hi.timer (by rw [hw]; rfl) j pfd t k hj ht
      rw [hw] at h1
      exact ⟨by simp_all [Worker.passed], h2⟩
    · rw [he, hi.length] at hlt
      omega
    · rw [hi.length] at hlt'
      omega
    · cases he'
      exact ⟨by simp [Worker.passed], ho.held _ (by simp [hw]), rfl, rfl⟩
  | keep htop hpush hp hk =>
    have hg : g.record s (.work r) s' = g := by
      simp only [Pushes.record]
      split
      · exact if_pos (htop ‹_›)
      · exact absurd ‹_› (hpush _)
      · rfl
    rw [hg]
    exact hi.keep hp hk (fun t => h.zombie_of id) hsearched

/-- A zombie stays one until its slot is cleaned. -/
theorem Move.keeps_zombie {th : Thread m} {r : Reply} (h : Move s (.step th r) s') (ho : Own s) {i : Fin n}
    (hz : (s.state i).has .zombie = true) (hd : (s.calls th).closed ≠ some i) : (s'.state i).has .zombie = true := by
  have hm : ∀ k, (s.calls th).claims = some k → k ≠ i := by
    rintro k hk rfl
    have := ho.used k hz
    rw [(ho.claimed th k hk).2] at this
    cases this
  have hup : ∀ (k : Fin n) (w : Word), (k = i → w.has .zombie = true) →
      (Function.update s.state k w i).has .zombie = true := by
    intro k w hk
    rw [Function.update_apply]
    split
    · rename_i e; exact hk e.symm
    · exact hz
  cases h with
  | claim hc => exact hup _ _ fun e => by simp [e, hz]
  | clear hc => exact hup _ _ fun e => by simp [e, hz, bitActive, bitSched]
  | setSched hc | publish hc | zombie hc => exact hup _ _ fun e => by simp [e, hz]
  | errReset hc => exact hup _ _ fun e => absurd e (hm _ (by rw [hc]; rfl))
  | deinitReset hc => exact hup _ _ fun e => absurd (by rw [hc, e]; rfl) hd
  | create | createErr | goto | done | taken | fill | initLock | errClose | settime | started | stopped | unStopped
  | unLock | unUnlock | deinitExit | deinitTrigger | deinitEvent | deinitSkip | deinitClose | deinitMutex => exact hz

/-- What a call records of a timer that is in use. -/
theorem record_of_used (th : Thread m) (r : Reply) (s' : Sys n m) (ho : Own s) {t : Fin n}
    (hu : (s.state t).has .used = true) :
    (g.record s (.step th r) s').timers = g.timers ∧ (g.record s (.step th r) s').installs t = g.installs t ∧
      (g.record s (.step th r) s').uninstalled t =
        if s.calls th = .uninstall t .zombie then some (g.installs t) else g.uninstalled t := by
  unfold Pushes.record
  dsimp only
  split
  · rename_i cb arg i hc
    have hn : t ≠ i := by
      rintro rfl
      have := (ho.claimed th t (by rw [hc]; rfl)).2
      rw [hu] at this
      cases this
    exact ⟨rfl, Function.update_of_ne hn .., by rw [hc, if_neg (by nofun)]⟩
  · rename_i k hc
    refine ⟨rfl, rfl, ?_⟩
    rw [hc]
    rcases eq_or_ne t k with rfl | hn
    · simp
    · rw [if_neg (by rintro ⟨⟩; exact hn rfl)]
      exact Function.update_of_ne hn ..
  · rename_i h1 h2
    exact ⟨rfl, rfl, by rw [if_neg (h2 t)]⟩

/-- One step of a call. -/
theorem Tagged.call {th : Thread m} {r : Reply} (hi : Tagged s g) (ho : Own s) (h : Move s (.step th r) s') :
    Tagged s' (g.record s (.step th r) s') := by
  obtain ⟨hw, hp⟩ := h.frame_worker nofun
  have hrec : (g.record s (.step th r) s').timers = g.timers := by
    unfold Pushes.record; dsimp only; split <;> rfl
  have hjoin : ∀ {t}, s.worker.polls = true → (s.calls th).closed ≠ some t := fun hpolls e => by
    rw [ho.joined th (afterJoin_of_closed e)] at hpolls
    cases hpolls
  refine ⟨by rw [hrec, hp, hi.length], fun hpolls j pfd t k hj ht => ?_, fun t hz => ?_, fun j i t k hs ht hlt => ?_⟩
  · rw [hw] at hpolls
    obtain ⟨h1, h2, h3, h4⟩ := hi.timer hpolls j pfd t k (hp ▸ hj) (hrec ▸ ht)
    obtain ⟨h5, h6⟩ := h.keeps_used ho h2 (hjoin hpolls)
    exact ⟨hw ▸ h1, h5, h6.trans h3, (record_of_used th r s' ho h2).2.1.trans h4⟩
  · by_cases hb : s.calls th = .uninstall t .zombie
    · obtain ⟨-, h1, h2⟩ := record_of_used (g := g) th r s' ho (ho.removed th t (by rw [hb]; rfl)).1
      rw [h1, h2, if_pos hb]
    · have hz' := h.zombie_of (i := t) hb hz
      obtain ⟨-, h1, h2⟩ := record_of_used (g := g) th r s' ho (ho.used t hz')
      rw [h1, h2, if_neg hb, hi.gone t hz']
  · rw [hw] at hs
    have hpolls : s.worker.polls = true := by rcases hs with h | h <;> rw [h] <;> rfl
    exact h.keeps_zombie ho (hi.missed j i t k hs (hrec ▸ ht) hlt) (hjoin hpolls)

/-- **What the pollfds stand for, in every run** with linear handles. -/
theorem tagged_of_reach {x : Sys n m × Pushes n} (hr : (pushes n m).Reach (fun x a => Linear x.1 a) x) :
    Tagged x.1 x.2 := by
  refine hr.record_invariant (I := fun s g => Tagged s g) ?_ fun s a s' g hr hi _ h => ?_
  · rintro s ⟨fd, -, rfl⟩; exact .init fd
  · have ho := own_of_reach hr.fst
    have hm := step_move h
    cases a with
    | work r => exact hi.work ho hm
    | step th r => exact hi.call ho hm
    | tick | expire =>
      cases hm
      exact hi.keep rfl (fun hw => ⟨hw, fun _ hp hu => ⟨hp, hu, rfl⟩⟩) (fun _ => id) hi.missed
    | call th op =>
      cases hm with
      | enter _ _ he =>
        subst he
        exact hi.keep (by simp) (by simp +contextual) (by simp) (by simpa using hi.missed)

/-! ## The search -/

/-- What a search has returned, and what it has found. -/
theorem lookup_cases {r : Reply} (h : Move s (.work r) s') {found : Option (Fin n)} (hl : s.lookup s' = some found) :
    (∃ j i pfd, s.worker = .service j (.compare i) ∧ s.pfds[j]? = some pfd ∧ s.fd i = pfd.fd ∧ found = some i) ∨
    ∃ j i pfd, s.worker.searches j i ∧ s.pfds[j]? = some pfd ∧ n ≤ i + 1 ∧ found = none ∧
      ((s.state i).has .used = true → s.fd i = pfd.fd → (s.state i).has .zombie = true) := by
  have hnone : ∀ {j k : Nat} {w : Worker n}, s'.worker = findFrom n j k → s.worker = w → (∃ i, w.searches j i) →
      n ≤ k ∧ found = none := by
    intro j k w h1 h2 ⟨i, h3⟩
    rw [findFrom] at h1
    split at h1
    · rcases h3 with rfl | rfl <;> simp [Sys.lookup, h1, h2] at hl
    · rename_i hk
      rcases h3 with rfl | rfl <;> simp [Sys.lookup, h1, h2] at hl <;> exact ⟨by omega, hl.symm⟩
  cases h with
  | work hm =>
    cases hm with
    | @found j i pfd hw hj he =>
      simp [Sys.lookup, hw] at hl
      exact .inl ⟨j, i, pfd, hw, hj, he, hl.symm⟩
    | @invalid j i pfd hw hj hno =>
      obtain ⟨h1, h2⟩ := hnone rfl hw ⟨i, .inl rfl⟩
      rw [not_and, Bool.not_eq_false] at hno
      exact .inr ⟨j, i, pfd, .inl hw, hj, h1, h2, fun hu _ => hno hu⟩
    | @other j i pfd hw hj hne =>
      obtain ⟨h1, h2⟩ := hnone rfl hw ⟨i, .inr rfl⟩
      exact .inr ⟨j, i, pfd, .inr hw, hj, h1, h2, fun _ he => absurd he hne⟩
    | exit hw | unused hw | used hw | zombie hw | alive hw | active hw | inactive hw | noCas hw | pollErr hw
    | quiet hw | ready hw | valid hw | noCb hw | enter hw | fire hw | skip hw | ret hw =>
      simp [Sys.lookup, hw] at hl
    | batchEnd hw => simp [Sys.lookup] at hl
  | pass hw | close hw | reset hw | deinitLock hw | cas hw | push hw | clearSched hw | pollEvent hw | pollTimers hw
  | eventRead hw | read hw | lock hw | unlock hw | clearActive hw => simp [Sys.lookup, hw] at hl

/-- **Events go to the right timer**: a search for a pollfd that was pushed for the `k`-th timer installed in slot `t`
returns that timer, which is still in its slot, or nothing if it has been uninstalled. -/
theorem lookup_right {x : Sys n m × Pushes n} (hr : (pushes n m).Reach (fun x a => Linear x.1 a) x) {r : Reply}
    {s' : Sys n m} (hs : step x.1 (.work r) = some s') {found : Option (Fin n)} (hl : x.1.lookup s' = some found)
    {j : Nat} {p : Service n} (hw : x.1.worker = .service j p) {t : Fin n} {k : Nat}
    (ht : x.2.timers[j]? = some (some (t, k))) :
    x.2.installs t = k ∧ (found = some t ∨ found = none ∧ x.2.uninstalled t = some k) := by
  have hi := tagged_of_reach hr
  have ho := own_of_reach hr.fst
  have hpolls : x.1.worker.polls = true := by rw [hw]; rfl
  have howns : ∀ i, (x.1.state i).has .used = true → x.1.Holds i := fun i hu =>
    .inl (ho.owns_of_used hu (by rw [hw]; nofun) (by rw [hw]; rfl))
  rcases lookup_cases (step_move hs) hl with ⟨j', i, pfd, hw', hj, he, rfl⟩ | ⟨j', i, pfd, hw', hj, hn, rfl, hno⟩
  · rw [hw'] at hw
    cases hw
    obtain ⟨-, h1, h2, h3⟩ := hi.timer hpolls j pfd t k hj ht
    have hu : (x.1.state i).has .used = true := ho.held i (by simp [hw'])
    have := (descriptors_of_reach hr.fst).distinct i t (howns i hu) (howns t h1) (he.trans h2.symm)
    exact ⟨h3, .inl (congrArg some this)⟩
  · have hjj : j' = j := by rcases hw' with h | h <;> rw [h] at hw <;> cases hw <;> rfl
    subst hjj
    obtain ⟨-, -, -, h3⟩ := hi.timer hpolls j' pfd t k hj ht
    refine ⟨h3, .inr ⟨rfl, ?_⟩⟩
    rw [hi.gone t (hi.passBy hw' hj hno ht (by omega)), h3]

/-- Two timers expire; the callback of the first uninstalls the second, and the worker searches for it. -/
def uninstalledInBatch : List (Act 2 1) :=
  let c : Thread 1 := .client 0
  [Act.call c (.install (some 7) 0), .step c .ok, .step c .ok, .step c (.fd 4), .step c .ok, .step c .ok,
    .call c (.install (some 7) 0), .step c .ok, .step c .ok, .step c .ok, .step c (.fd 5), .step c .ok, .step c .ok] ++
    Act.call c (.restart 0 0) :: List.replicate 4 (Act.step c .ok) ++
    Act.call c (.restart 1 0) :: List.replicate 4 (Act.step c .ok) ++
    [Act.tick 1, .expire 4, .expire 5] ++ List.replicate 48 (Act.work .ok) ++
    Act.call .worker (.uninstall 1) :: List.replicate 6 (Act.step .worker .ok) ++ List.replicate 7 (Act.work .ok)

theorem lookup_right_run : ∃ (x : Sys 2 1 × Pushes 2) (s' : Sys 2 1), step x.1 (.work .ok) = some s' ∧
    x.1.lookup s' = some none ∧ x.2.timers[2]? = some (some (1, 1)) ∧ x.2.uninstalled 1 = some 1 := by
  obtain ⟨x, hr, hw, ht, hst⟩ := Lts.Reach.run (M := pushes 2 1) (P := fun x a => Linear x.1 a)
    (Q := fun x => x.1.worker = .service 2 (.valid 1) ∧ x.2.timers[2]? = some (some (1, 1)) ∧
      (step x.1 (.work .ok)).any (fun s' => decide (x.1.lookup s' = some none)) = true)
    (s := (ctxInit 2 1 3, .empty)) ⟨⟨3, by decide, rfl⟩, rfl⟩ uninstalledInBatch (by decide +kernel)
  obtain ⟨s', hs', hl⟩ := (Option.any_eq_true _ _).mp hst
  have hl := of_decide_eq_true hl
  obtain ⟨-, h | ⟨-, h⟩⟩ := lookup_right hr hs' hl hw ht
  · cases h
  · exact ⟨x, s', hs', hl, ht, h⟩

end Gabs.Timer.Posix
