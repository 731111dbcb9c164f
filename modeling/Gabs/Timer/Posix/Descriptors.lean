import Gabs.Timer.Posix.Ownership

/-!
# The POSIX timer: descriptors

- `Sys.Holds`: the slot has a timerfd of its own, from `timerfd_create` to `close`;
- `Descriptors`: these are open, pairwise distinct and not the eventfd;
- `Polled`: during a pass and the service of its events every pollfd is the eventfd or the timerfd of a slot that the
  pass has been at and that stays in use;
- `descriptors_of_reach`, `polled_of_reach`: both hold in every reachable state.
-/

namespace Gabs.Timer.Posix

open Gabs.Lib

variable {n m : Nat}

/-! ## Slots with a descriptor -/

/-- The slot whose timerfd an install has created. -/
def Call.opened : Call n → Option (Fin n)
  | .install _ _ (.initLock i) | .install _ _ (.errClose i) | .install _ _ (.publish i) => some i
  | _ => none

/-- The slot whose timerfd `gabs_timer_ctx_deinit` has closed and whose word it has not reset. -/
def Call.closed : Call n → Option (Fin n)
  | .deinit (.reset i) => some i
  | _ => none

/-- The slot whose timerfd the worker has closed and whose word it has not reset. -/
def Worker.closed : Worker n → Option (Fin n)
  | .prepare i .reset => some i
  | _ => none

/-- Slot `i` is in use and its timerfd has not been closed. -/
def Sys.Owns (s : Sys n m) (i : Fin n) : Prop :=
  (s.state i).has .used = true ∧ s.worker.closed ≠ some i ∧ ∀ th, (s.calls th).closed ≠ some i

/-- Slot `i` has a timerfd: it owns it, or an install has just created it. -/
def Sys.Holds (s : Sys n m) (i : Fin n) : Prop := s.Owns i ∨ ∃ th, (s.calls th).opened = some i

/-- **Timerfds of the slots.** -/
structure Descriptors (s : Sys n m) : Prop where
  opened : ∀ i, s.Holds i → 0 ≤ s.fd i ∧ s.fds (s.fd i) ≠ none
  distinct : ∀ i j, s.Holds i → s.Holds j → s.fd i = s.fd j → i = j
  event : s.eventOpen = true → s.fds s.eventfd = none

theorem prepareFrom_closed (k : Nat) : (prepareFrom n k).closed = none := by
  unfold prepareFrom; split <;> rfl

theorem findFrom_closed (j k : Nat) : (findFrom n j k).closed = none := by
  unfold findFrom; split <;> rfl

theorem holds_of_closed {w : Worker n} {i : Fin n} (h : w.closed = some i) : w.holds i = true := by
  unfold Worker.closed at h
  split at h
  · cases h; simp
  · cases h

theorem claims_of_opened {c : Call n} {i : Fin n} (h : c.opened = some i) : c.claims = some i := by
  unfold Call.opened at h
  split at h <;> first | exact h | cases h

theorem allocCall_opened (cb : Option Nat) (arg k : Nat) : (allocCall n cb arg k).opened = none := by
  unfold allocCall; split <;> rfl

theorem allocCall_closed (cb : Option Nat) (arg k : Nat) : (allocCall n cb arg k).closed = none := by
  unfold allocCall; split <;> rfl

theorem deinitCall_opened (k : Nat) : (deinitCall n k).opened = none := by
  unfold deinitCall; split <;> rfl

theorem deinitCall_closed (k : Nat) : (deinitCall n k).closed = none := by
  unfold deinitCall; split <;> rfl

theorem first_opened (op : Op n) : op.first.opened = none := by
  cases op with
  | install cb arg => exact allocCall_opened cb arg 0
  | _ => rfl

theorem first_closed (op : Op n) : op.first.closed = none := by
  cases op with
  | install cb arg => exact allocCall_closed cb arg 0
  | _ => rfl

variable {s s' : Sys n m}

theorem WorkMove.closed {w : Worker n} (h : WorkMove s w) : s.worker.closed = none ∧ w.closed = none := by
  cases h with
  | unused hw | noCas hw => exact ⟨by rw [hw]; rfl, prepareFrom_closed _⟩
  | invalid hw | other hw => exact ⟨by rw [hw]; rfl, findFrom_closed _ _⟩
  | exit hw | used hw | zombie hw | alive hw | active hw | inactive hw | pollErr hw | batchEnd hw | quiet hw | ready hw
  | valid hw | found hw | noCb hw | enter hw | fire hw | skip hw | ret hw => exact ⟨by rw [hw]; rfl, rfl⟩

theorem CallMove.opened {th : Thread m} {r : Reply} {c : Call n} (h : CallMove s th r c) :
    c.opened = (s.calls th).opened ∧ c.closed = (s.calls th).closed := by
  cases h <;> simp_all [Call.opened, Call.closed]

/-- A step of the worker that opens and closes nothing. -/
theorem holds_worker {i : Fin n} (h : s'.Holds i)
    (hu : (s'.state i).has .used = true → (s.state i).has .used = true)
    (hw : s.worker.closed = some i → s'.worker.closed = some i ∨ (s'.state i).has .used = false)
    (hc : s'.calls = s.calls) : s.Holds i := by
  rcases h with ⟨h1, h2, h3⟩ | h
  · refine .inl ⟨hu h1, fun e => ?_, hc ▸ h3⟩
    rcases hw e with h | h
    · exact h2 h
    · simp [h1] at h
  · exact .inr (hc ▸ h)

/-- A step of a call that opens nothing. -/
theorem holds_call {i : Fin n} {th : Thread m} {c : Call n} (h : s'.Holds i)
    (hu : (s'.state i).has .used = true → (s.state i).has .used = true ∨ (s.calls th).opened = some i)
    (hw : s'.worker = s.worker) (hs : s'.calls = Function.update s.calls th c)
    (ho : c.opened = some i → (s.calls th).opened = some i)
    (hc : (s.calls th).closed = some i → c.closed = some i ∨ (s'.state i).has .used = false) : s.Holds i := by
  unfold Sys.Holds Sys.Owns at h
  simp only [hw, hs, Function.update_apply] at h
  rcases h with ⟨h1, h2, h3⟩ | ⟨th', h⟩
  · rcases hu h1 with hu | hu
    · refine .inl ⟨hu, h2, fun th' e => ?_⟩
      have h4 := h3 th'
      split at h4
      · rename_i e'
        subst e'
        rcases hc e with h | h
        · exact h4 h
        · simp [h1] at h
      · exact h4 e
    · exact .inr ⟨th, hu⟩
  · split at h
    · exact .inr ⟨th, ho h⟩
    · exact .inr ⟨th', h⟩

/-- A slot whose install has not created a timerfd, or no longer counts it. -/
theorem not_holds {k : Fin n} (h : s'.Holds k) (ho : Own s) {th : Thread m} {c : Call n}
    (hs : s'.calls = Function.update s.calls th c) (hm : (s.calls th).claims = some k) (hc : c.opened ≠ some k)
    (hu : (s'.state k).has .used = (s.state k).has .used) : False := by
  rcases h with ⟨h, -, -⟩ | ⟨th', h⟩
  · rw [hu, (ho.claimed th k hm).2] at h
    cases h
  · rw [hs, Function.update_apply] at h
    split at h
    · exact hc h
    · rename_i e; exact e (ho.claim_unique th' th k (claims_of_opened h) hm)

/-- The worker opens nothing. -/
theorem Move.holds_work {r : Reply} {i : Fin n} (h : Move s (.work r) s') (hh : s'.Holds i) : s.Holds i := by
  cases h with
  | work hm => exact holds_worker hh id (by simp [hm.closed.1]) rfl
  | pass hw | push hw | pollEvent hw | pollTimers hw | eventRead hw | lock hw | unlock hw | read hw | deinitLock hw
  | close hw => exact holds_worker hh id (by simp [hw, Worker.closed]) rfl
  | clearSched hw => exact holds_worker hh (has_of_update rfl (by simp [bitSched]) i) (by simp [hw, Worker.closed]) rfl
  | clearActive hw =>
    exact holds_worker hh (has_of_update rfl (by simp [bitActive]) i) (by simp [hw, Worker.closed]) rfl
  | cas hw hc =>
    exact holds_worker hh (has_of_update rfl (by simp [(has_of_maskCas hc).2]) i) (by simp [hw, Worker.closed]) rfl
  | reset hw =>
    refine holds_worker hh (has_of_update rfl (by simp) i) (fun e => .inr ?_) rfl
    rw [hw] at e
    cases e
    simp

/-- The action is the `timerfd_create` for slot `i`. -/
def Act.creates (s : Sys n m) (i : Fin n) : Act n m → Prop
  | .step th _ => ∃ cb arg, s.calls th = .install cb arg (.create i)
  | _ => False

/-- A call opens a timerfd with `timerfd_create` alone. -/
theorem Move.holds_step {th : Thread m} {r : Reply} {i : Fin n} (h : Move s (.step th r) s')
    (hn : ∀ cb arg, s.calls th ≠ .install cb arg (.create i)) (hh : s'.Holds i) : s.Holds i := by
  cases h with
  | goto h =>
    have hk := h.opened
    exact holds_call hh .inl rfl rfl (by simp [hk.1]) (fun e => .inl (hk.2.trans e))
  | done h =>
    have hc : (s.calls th).closed = none := by cases h with | busy hc | active hc => rw [hc]; rfl
    exact holds_call (c := .idle) hh .inl rfl rfl (by simp [Call.opened]) (by simp [hc])
  | taken hc => exact holds_call hh .inl rfl rfl (by simp [allocCall_opened]) (by simp [hc, Call.closed])
  | deinitSkip hc | deinitMutex hc | deinitEvent hc =>
    exact holds_call hh .inl rfl rfl (by simp [deinitCall_opened]) (by simp [hc, Call.closed])
  | fill hc | initLock hc | started hc | stopped hc | unStopped hc | unLock hc | unUnlock hc | deinitExit hc
  | deinitTrigger hc | createErr hc | errClose hc =>
    exact holds_call hh .inl rfl rfl (by simp [hc, Call.opened]) (by simp [hc, Call.closed])
  | setSched hc =>
    exact holds_call hh (fun h => .inl (has_of_update rfl (by simp [bitSched]) i h)) rfl rfl (by simp [Call.opened])
      (by simp [hc, Call.closed])
  | claim hc =>
    exact holds_call hh (fun h => .inl (has_of_update rfl (by simp [bitAlloc]) i h)) rfl rfl (by simp [Call.opened])
      (by simp [hc, Call.closed])
  | zombie hc =>
    exact holds_call hh (fun h => .inl (has_of_update rfl (by simp [bitZombie]) i h)) rfl rfl (by simp [Call.opened])
      (by simp [hc, Call.closed])
  | errReset hc =>
    exact holds_call hh (fun h => .inl (has_of_update rfl (by simp) i h)) rfl rfl (by simp [Call.opened])
      (by simp [hc, Call.closed])
  | @publish _ _ cb arg k hc =>
    refine holds_call hh (fun hu => ?_) rfl rfl (by simp [Call.opened]) (by simp [hc, Call.closed])
    rcases eq_or_ne i k with rfl | hn
    · exact .inr (by rw [hc]; rfl)
    · exact .inl (by simpa [Function.update_of_ne hn] using hu)
  | @clear _ _ t c hc =>
    have hk : (s.calls th).closed = none ∧ c.opened = none := by
      generalize s.calls th = c' at hc
      cases hc <;> exact ⟨rfl, rfl⟩
    exact holds_call hh (fun h => .inl (has_of_update (j := t) rfl (by simp [bitActive, bitSched]) i h)) rfl rfl
      (by simp [hk]) (by simp [hk])
  | @settime _ t spec c tf hc hf =>
    have hk : (s.calls th).closed = none ∧ c.opened = none := by
      generalize s.calls th = c' at hc
      cases hc <;> exact ⟨rfl, rfl⟩
    exact holds_call hh .inl rfl rfl (by simp [hk]) (by simp [hk])
  | @create _ cb arg k d hc =>
    have hk : k ≠ i := fun e => hn cb arg (e ▸ hc)
    exact holds_call hh .inl rfl rfl (by simp [Call.opened, hk]) (by simp [hc, Call.closed])
  | @deinitClose _ _ k hc =>
    exact holds_call hh .inl rfl rfl (by simp [Call.opened]) (by simp [hc, Call.closed])
  | @deinitReset _ _ k hc =>
    refine holds_call hh (fun h => .inl (has_of_update rfl (by simp) i h)) rfl rfl (by simp [Call.opened])
      (fun e => .inr ?_)
    rw [hc] at e
    cases e
    simp

/-- **Only `timerfd_create` gives a slot a timerfd**, and only it changes the descriptor of a slot that has one. -/
theorem Move.holds {a : Act n m} {i : Fin n} (h : Move s a s') (hn : ¬a.creates s i) (hh : s'.Holds i) :
    s.Holds i ∧ s'.fd i = s.fd i := by
  cases a with
  | work r => exact ⟨h.holds_work hh, by cases h <;> rfl⟩
  | step th r =>
    have hn' : ∀ cb arg, s.calls th ≠ .install cb arg (.create i) := fun cb arg e => hn ⟨cb, arg, e⟩
    refine ⟨h.holds_step hn' hh, ?_⟩
    cases h with
    | @create _ cb arg k d hc | @createErr _ d cb arg k hc =>
      have hk : i ≠ k := fun e => hn' cb arg (e ▸ hc)
      exact Function.update_of_ne hk ..
    | _ => rfl
  | tick | expire => cases h; exact ⟨hh, rfl⟩
  | call th op =>
    cases h with
    | enter hc _ he =>
      subst he
      exact ⟨holds_call hh (fun h => .inl (by simpa using h)) (enter_worker ..) (enter_calls ..)
        (by simp [first_opened]) (by simp [hc, Call.closed]), by simp⟩

/-- A step after which no further slot has a timerfd. -/
theorem Descriptors.keep (hi : Descriptors s) (hh : ∀ i, s'.Holds i → s.Holds i)
    (hf : ∀ i, s'.Holds i → s'.fd i = s.fd i) (ho : ∀ i, s'.Holds i → s'.fds (s.fd i) ≠ none)
    (he : s'.eventOpen = true → s'.fds s'.eventfd = none) : Descriptors s' := by
  refine ⟨fun i h => ?_, fun i j h1 h2 h => ?_, he⟩
  · rw [hf i h]
    exact ⟨(hi.opened i (hh i h)).1, ho i h⟩
  · rw [hf i h1, hf j h2] at h
    exact hi.distinct i j (hh i h1) (hh j h2) h

/-- The open descriptors are the same. -/
def SameOpen (s s' : Sys n m) : Prop :=
  s'.eventfd = s.eventfd ∧ (s'.eventOpen = true → s.eventOpen = true) ∧ ∀ fd, s'.fds fd = none ↔ s.fds fd = none

/-- A setting of an open timerfd opens and closes nothing. -/
theorem update_eq_none {fds : Int → Option Timerfd} {fd : Int} {t t' : Timerfd} (h : fds fd = some t) (d : Int) :
    Function.update fds fd (some t') d = none ↔ fds d = none := by
  rw [Function.update_apply]
  split
  · rename_i e; simp [e, h]
  · exact Iff.rfl

theorem sameOpen_update {fd : Int} {t t' : Timerfd} (h : s.fds fd = some t)
    (hs : s'.fds = Function.update s.fds fd (some t')) (h1 : s'.eventfd = s.eventfd)
    (h2 : s'.eventOpen = s.eventOpen) : SameOpen s s' :=
  ⟨h1, fun e => h2 ▸ e, fun d => by rw [hs]; exact update_eq_none h d⟩

theorem sameOpen_refl : SameOpen s s := ⟨rfl, id, fun _ => Iff.rfl⟩

/-- A step that opens and closes nothing. -/
theorem Descriptors.same (hi : Descriptors s) (hh : ∀ i, s'.Holds i → s.Holds i)
    (hf : ∀ i, s'.Holds i → s'.fd i = s.fd i) (ho : SameOpen s s') : Descriptors s' := by
  obtain ⟨h1, h2, h3⟩ := ho
  refine hi.keep hh hf (fun i h e => (hi.opened i (hh i h)).2 ((h3 _).mp e)) fun h => ?_
  rw [h1, h3]
  exact hi.event (h2 h)

/-- Closing the timerfd of a slot that no longer counts. -/
theorem Descriptors.close (hi : Descriptors s) {i : Fin n} (hh : ∀ k, s'.Holds k → s.Holds k ∧ k ≠ i) (hb : s.Holds i)
    (hf : s'.fd = s.fd) (hs : s'.fds = Function.update s.fds (s.fd i) none) (h1 : s'.eventfd = s.eventfd)
    (h2 : s'.eventOpen = s.eventOpen) : Descriptors s' := by
  refine hi.keep (fun k h => (hh k h).1) (fun _ _ => by rw [hf]) (fun k h => ?_) fun h => ?_
  · obtain ⟨h3, h4⟩ := hh k h
    rw [hs, Function.update_of_ne (fun e => h4 (hi.distinct k i h3 hb e))]
    exact (hi.opened k h3).2
  · rw [hs, h1, Function.update_apply]
    split
    · rfl
    · exact hi.event (h2 ▸ h)

theorem afterJoin_of_closed {c : Call n} {i : Fin n} (h : c.closed = some i) : c.afterJoin = true := by
  unfold Call.closed at h
  split at h <;> simp_all [Call.afterJoin]

/-- While the worker runs and is not in `timer_cleanup`, a timer in use has its timerfd. -/
theorem Own.owns_of_used (ho : Own s) {t : Fin n} (hu : (s.state t).has .used = true) (hw : s.worker ≠ .exited)
    (hc : s.worker.closed = none) : s.Owns t :=
  ⟨hu, by rw [hc]; nofun, fun th e => hw (ho.joined th (afterJoin_of_closed e))⟩

/-- The worker closes timerfds that belong to their slots. -/
theorem Own.owns_of_close (ho : Own s) {k : Fin n} (hw : s.worker = .prepare k .close) : s.Owns k := by
  refine ⟨ho.held k (by simp [hw]), by rw [hw]; nofun, fun th e => ?_⟩
  have := ho.joined th (afterJoin_of_closed e)
  rw [hw] at this
  cases this

/-- `deinit` closes timerfds that belong to their slots. -/
theorem Own.owns_of_deinit (ho : Own s) (hcl : Closing s) {th : Thread m} {k : Fin n}
    (hc : s.calls th = .deinit (.close k)) : s.Owns k := by
  obtain ⟨-, hid⟩ := ho.alone th (by rw [hc]; rfl)
  refine ⟨hcl th k true (by rw [hc]; rfl), ?_, fun th' => ?_⟩
  · rw [ho.joined th (by rw [hc]; rfl)]; nofun
  · by_cases e : th' = th
    · subst e; rw [hc]; nofun
    · rw [hid th' e]; nofun

/-- `timerfd_create`. -/
theorem Descriptors.create (hi : Descriptors s) {k : Fin n} {d : Int} {t : Timerfd} (hd : s.fresh d = true)
    (hh : ∀ i, s'.Holds i → i = k ∨ s.Holds i) (hf : s'.fd = Function.update s.fd k d)
    (hs : s'.fds = Function.update s.fds d (some t)) (h1 : s'.eventfd = s.eventfd) (h2 : s'.eventOpen = s.eventOpen) :
    Descriptors s' := by
  simp only [Sys.fresh, Bool.and_eq_true, decide_eq_true_eq, Option.isNone_iff_eq_none, Bool.not_eq_true',
    Bool.and_eq_false_iff, decide_eq_false_iff_not] at hd
  obtain ⟨⟨hd0, hdn⟩, hde⟩ := hd
  have hne : ∀ i, s.Holds i → s.fd i ≠ d := fun i h e => (hi.opened i h).2 (e ▸ hdn)
  refine ⟨fun i h => ?_, fun i j hi' hj' h => ?_, fun h => ?_⟩
  · rcases eq_or_ne i k with rfl | hn
    · rw [hs, hf]; simp [hd0]
    · have := (hh i h).resolve_left hn
      rw [hs, hf, Function.update_of_ne hn, Function.update_of_ne (hne i this)]
      exact hi.opened i this
  · rw [hf] at h
    by_cases e1 : i = k <;> by_cases e2 : j = k
    · rw [e1, e2]
    · subst e1
      rw [Function.update_self, Function.update_of_ne e2] at h
      exact absurd h.symm (hne j ((hh j hj').resolve_left e2))
    · subst e2
      rw [Function.update_self, Function.update_of_ne e1] at h
      exact absurd h (hne i ((hh i hi').resolve_left e1))
    · rw [Function.update_of_ne e1, Function.update_of_ne e2] at h
      exact hi.distinct i j ((hh i hi').resolve_left e1) ((hh j hj').resolve_left e2) h
  · rw [h2] at h
    rw [hs, h1, Function.update_of_ne]
    · exact hi.event h
    · rcases hde with e | e
      · rw [h] at e; cases e
      · exact fun e' => e e'.symm

/-- One step of the worker. -/
theorem Descriptors.work {r : Reply} (hi : Descriptors s) (ho : Own s) (h : Move s (.work r) s') :
    Descriptors s' := by
  have hh := fun i hh => h.holds (i := i) id hh
  have hsame : SameOpen s s' → Descriptors s' := hi.same (fun i h => (hh i h).1) (fun i h => (hh i h).2)
  cases h with
  | @read r j pfd hw hj =>
    refine hsame ⟨rfl, id, fun fd => ?_⟩
    simp only [Sys.work_fds, readFd_fds, Function.update_apply]
    split
    · rename_i e; subst e; exact Option.map_eq_none_iff
    · exact Iff.rfl
  | @close r k hw =>
    have hb : s.Holds k := .inl (ho.owns_of_close hw)
    refine hi.close (i := k) (fun i h => ⟨(hh i h).1, ?_⟩) hb rfl (if_pos (hi.opened k hb).1) rfl rfl
    rintro rfl
    rcases h with ⟨-, h, -⟩ | ⟨th, h⟩
    · exact h rfl
    · have := (ho.claimed th i (claims_of_opened h)).2
      simp [ho.held i (by simp [hw])] at this
  | _ => exact hsame sameOpen_refl

/-- One step of a call. -/
theorem Descriptors.call {th : Thread m} {r : Reply} (hi : Descriptors s) (ho : Own s) (hcl : Closing s)
    (h : Move s (.step th r) s') : Descriptors s' := by
  have hh := fun i hn hh => h.holds (i := i) hn hh
  have hsame : (∀ i cb arg, s'.Holds i → s.calls th ≠ .install cb arg (.create i)) → SameOpen s s' →
      Descriptors s' := fun hn => hi.same (fun i h => (hh i (fun ⟨_, _, e⟩ => hn _ _ _ h e) h).1)
        fun i h => (hh i (fun ⟨_, _, e⟩ => hn _ _ _ h e) h).2
  cases h with
  | goto hm => cases hm <;> exact hsame (by simp [*]) sameOpen_refl
  | done hm => cases hm <;> exact hsame (by simp [*]) sameOpen_refl
  | clear hm =>
    generalize s.calls th = c at hm hsame
    cases hm <;> exact hsame (by simp) sameOpen_refl
  | settime hm hf =>
    generalize s.calls th = c at hm hsame
    cases hm <;> exact hsame (by simp) (sameOpen_update hf rfl rfl rfl)
  | taken hc | claim hc | fill hc | initLock hc | errReset hc | publish hc | setSched hc | started hc | stopped hc
  | unStopped hc | unLock hc | unUnlock hc | zombie hc | deinitExit hc | deinitTrigger hc | deinitSkip hc
  | deinitReset hc | deinitMutex hc => exact hsame (by simp [hc]) sameOpen_refl
  | deinitEvent hc => exact hsame (by simp [hc]) ⟨rfl, nofun, fun _ => Iff.rfl⟩
  | @create _ cb arg k d hc hf =>
    refine hi.create (k := k) hf (fun i h => ?_) rfl rfl rfl rfl
    rcases eq_or_ne i k with e | hn
    · exact .inl e
    · exact .inr (hh i (by simp [Act.creates, hc, hn.symm]) h).1
  | @createErr _ e cb arg k hc =>
    refine hsame (fun i cb' arg' h e => ?_) sameOpen_refl
    rw [hc] at e
    cases e
    exact not_holds h ho rfl (by rw [hc]; rfl) (by simp [Call.opened]) rfl
  | @errClose _ _ cb arg k hc =>
    have hm : (s.calls th).claims = some k := by rw [hc]; rfl
    refine hi.close (i := k) (fun i h => ⟨(hh i (by simp [Act.creates, hc]) h).1, ?_⟩) (.inr ⟨th, by rw [hc]; rfl⟩)
      rfl rfl rfl rfl
    rintro rfl
    exact not_holds h ho rfl hm (by simp [Call.opened]) rfl
  | @deinitClose _ _ k hc =>
    have hid := (ho.alone th (by rw [hc]; rfl)).2
    have hb : s.Holds k := .inl (ho.owns_of_deinit hcl hc)
    refine hi.close (i := k) (fun i h => ⟨(hh i (by simp [Act.creates, hc]) h).1, ?_⟩) hb rfl
      (if_pos (hi.opened k hb).1) rfl rfl
    rintro rfl
    rcases h with ⟨-, -, h⟩ | ⟨th', h⟩
    · exact h th (by simp [Call.closed])
    · simp only [Sys.goto_calls, cleanupClose_calls, Function.update_apply] at h
      split at h
      · cases h
      · rename_i e; rw [hid th' e] at h; cases h

/-- One step of the system. -/
theorem Descriptors.step {a : Act n m} (hi : Descriptors s) (ho : Own s) (hcl : Closing s) (h : Move s a s') :
    Descriptors s' := by
  cases a with
  | work r => exact hi.work ho h
  | step th r => exact hi.call ho hcl h
  | tick => cases h; exact hi.same (fun i h => h) (fun _ _ => rfl) sameOpen_refl
  | expire => cases h with | expire hf => exact hi.same (fun i h => h) (fun _ _ => rfl) (sameOpen_update hf rfl rfl rfl)
  | call th op =>
    have hh := fun i hh => h.holds (i := i) id hh
    cases h with
    | enter _ _ he =>
      subst he
      exact hi.same (fun i h => (hh i h).1) (by simp) ⟨by simp, by simp, by simp⟩

/-- **Every slot in use has a timerfd of its own**, in every run with linear handles. -/
theorem descriptors_of_reach (hr : (system n m).Reach Linear s) : Descriptors s := by
  refine hr.invariant ?_ fun s a s' hr hi _ h => hi.step (own_of_reach hr) (closing_of_reach hr) (step_move h)
  rintro s ⟨fd, -, rfl⟩
  have hn : ∀ i, ¬(ctxInit n m fd).Holds i := by
    rintro i (⟨h, -, -⟩ | ⟨th, h⟩)
    · simp [ctxInit] at h
    · cases h
  exact ⟨fun i h => absurd h (hn i), fun i _ h => absurd h (hn i), fun _ => rfl⟩

/-! ## What is kept -/

/-- A call changes neither the use nor the descriptor of a slot that is in use, unless it cleans it. -/
theorem Move.keeps_used {th : Thread m} {r : Reply} (h : Move s (.step th r) s') (ho : Own s) {i : Fin n}
    (hu : (s.state i).has .used = true) (hd : (s.calls th).closed ≠ some i) :
    (s'.state i).has .used = true ∧ s'.fd i = s.fd i := by
  have hm : ∀ k, (s.calls th).claims = some k → k ≠ i := by
    rintro k hk rfl
    rw [(ho.claimed th k hk).2] at hu
    cases hu
  have hup : ∀ (k : Fin n) (w : Word), (k = i → w.has .used = true) →
      (Function.update s.state k w i).has .used = true := by
    intro k w hk
    rw [Function.update_apply]
    split
    · rename_i e; exact hk e.symm
    · exact hu
  cases h with
  | claim hc => exact ⟨hup _ _ fun e => by simp [e, hu], rfl⟩
  | clear hc => exact ⟨hup _ _ fun e => by simp [e, hu, bitActive, bitSched], rfl⟩
  | setSched hc | publish hc | zombie hc => exact ⟨hup _ _ fun e => by simp [e, hu], rfl⟩
  | errReset hc => exact ⟨hup _ _ fun e => absurd e (hm _ (by rw [hc]; rfl)), rfl⟩
  | deinitReset hc => exact ⟨hup _ _ fun e => absurd (by rw [hc, e]; rfl) hd, rfl⟩
  | create hc | createErr hc => exact ⟨hu, Function.update_of_ne (hm _ (by rw [hc]; rfl)).symm ..⟩
  | goto | done | taken | fill | initLock | errClose | settime | started | stopped | unStopped | unLock | unUnlock
  | deinitExit | deinitTrigger | deinitEvent | deinitSkip | deinitClose | deinitMutex => exact ⟨hu, rfl⟩

/-- The call closes the timerfd of slot `i`. -/
def Act.closes (s : Sys n m) (i : Fin n) : Act n m → Prop
  | .work _ => s.worker = .prepare i .close
  | .step th _ => s.calls th = .deinit (.close i)
  | _ => False

/-- Only the `close` of `gabs_timer_ctx_deinit` brings a call between `close` and reset. -/
theorem Move.closed {th : Thread m} {r : Reply} (h : Move s (.step th r) s') {i : Fin n}
    (hc : (s'.calls th).closed = some i) : (s.calls th).closed = some i ∨ s.calls th = .deinit (.close i) := by
  cases h with
  | goto hm =>
    rw [Sys.goto_calls, Function.update_self, hm.opened.2] at hc
    exact .inl hc
  | deinitClose h =>
    rw [Sys.goto_calls, Function.update_self] at hc
    cases hc
    exact .inr h
  | clear h | settime h =>
    rw [Sys.goto_calls, Function.update_self] at hc
    generalize s.calls th = c at h
    cases h <;> cases hc
  | taken =>
    rw [allocFrom_calls, Function.update_self, allocCall_closed] at hc
    cases hc
  | deinitEvent | deinitSkip | deinitMutex =>
    rw [deinitFrom_calls, Function.update_self, deinitCall_closed] at hc
    cases hc
  | done | errReset | publish | started | stopped | zombie =>
    rw [Sys.done_calls, Function.update_self] at hc
    cases hc
  | claim | fill | create | createErr | initLock | errClose | setSched | unStopped | unLock | unUnlock | deinitExit
  | deinitTrigger | deinitReset =>
    rw [Sys.goto_calls, Function.update_self] at hc
    cases hc

theorem used_of_update {i k : Fin n} {w : Word} (h : (s.state i).has .used = true)
    (hs : s'.state = Function.update s.state k w) (hk : k = i → w.has .used = true) :
    (s'.state i).has .used = true := by
  rw [hs, Function.update_apply]
  split
  · rename_i e; exact hk e.symm
  · exact h

/-- A slot owns its timerfd until it is closed. -/
theorem Move.owns {a : Act n m} (h : Move s a s') (ho : Own s) {i : Fin n} (hi : s.Owns i) (hc : ¬a.closes s i) :
    s'.Owns i ∧ s'.fd i = s.fd i := by
  obtain ⟨hu, hw, hd⟩ := hi
  cases a with
  | work r =>
    have hd' : ∀ th, (s'.calls th).closed ≠ some i := by rw [h.frame_calls]; exact hd
    cases h with
    | work hm => exact ⟨⟨hu, by rw [Sys.work_worker, hm.closed.2]; rintro ⟨⟩, hd'⟩, rfl⟩
    | close h => exact ⟨⟨hu, fun e => hc (by cases e; exact h), hd'⟩, rfl⟩
    | reset h =>
      refine ⟨⟨used_of_update hu rfl fun e => ?_, by rintro ⟨⟩, hd'⟩, rfl⟩
      exact absurd (by rw [h, e]; rfl) hw
    | cas h hm =>
      refine ⟨⟨used_of_update hu rfl fun e => ?_, by rintro ⟨⟩, hd'⟩, rfl⟩
      simp [(has_of_maskCas hm).2, e, hu]
    | clearSched h =>
      refine ⟨⟨used_of_update hu rfl fun e => by simp [bitSched, e, hu], ?_, hd'⟩, rfl⟩
      rw [Sys.work_worker, prepareFrom_closed]
      rintro ⟨⟩
    | clearActive h => exact ⟨⟨used_of_update hu rfl fun e => by simp [bitActive, e, hu], by rintro ⟨⟩, hd'⟩, rfl⟩
    | pass | deinitLock => exact ⟨⟨hu, by rw [Sys.work_worker, prepareFrom_closed]; rintro ⟨⟩, hd'⟩, rfl⟩
    | read =>
      refine ⟨⟨hu, ?_, hd'⟩, rfl⟩
      rw [Sys.work_worker]
      split
      · rw [findFrom_closed]; rintro ⟨⟩
      · rintro ⟨⟩
    | push | pollEvent | pollTimers | eventRead | lock | unlock => exact ⟨⟨hu, by rintro ⟨⟩, hd'⟩, rfl⟩
  | step th r =>
    have hk := h.keeps_used ho hu (hd th)
    refine ⟨⟨hk.1, (h.frame_worker (by simp)).1 ▸ hw, fun th' e => ?_⟩, hk.2⟩
    rcases eq_or_ne th' th with rfl | hn
    · exact (h.closed e).elim (hd th') hc
    · exact hd th' ((h.frame_others.2 th' hn) ▸ e)
  | call th op =>
    cases h with
    | enter _ _ he =>
      subst he
      refine ⟨⟨by simpa using hu, by simpa using hw, fun th' => ?_⟩, by simp⟩
      rw [enter_calls, Function.update_apply]
      split
      · simp [first_closed]
      · exact hd th'
  | expire | tick => cases h; exact ⟨⟨hu, hw, hd⟩, rfl⟩

/-! ## The poll set -/

/-- The array `pfds` is in use. -/
def Worker.polls : Worker n → Bool
  | .prepare _ _ | .poll | .service _ _ => true
  | _ => false

/-- The pass is through with slot `i`, as far as `pfds` is concerned. -/
def Worker.passed (i : Fin n) : Worker n → Bool
  | .prepare k p => decide (i < k) || decide (i = k) && decide (p = .clearSched)
  | .poll | .service _ _ => true
  | _ => false

/-- **What the pollfds stand for.** -/
def Polled (s : Sys n m) : Prop :=
  s.worker.polls = true → ∀ pfd ∈ s.pfds, pfd.fd = s.eventfd ∨
    ∃ i, s.worker.passed i = true ∧ (s.state i).has .used = true ∧ pfd.fd = s.fd i

theorem passed_prepareFrom {i : Fin n} {k : Nat} (h : i < k) : (prepareFrom n k).passed i = true := by
  unfold prepareFrom
  split
  · simp [Worker.passed, Fin.lt_def, h]
  · rfl

theorem passed_findFrom {i : Fin n} {j k : Nat} : (findFrom n j k).passed i = true := by
  unfold findFrom; split <;> rfl

/-- From slot `k` the pass goes on to the next slot. -/
theorem passed_next {i k : Fin n} {p : Prepare} (h : (Worker.prepare k p).passed i = true) :
    (prepareFrom n (k + 1)).passed i = true := by
  apply passed_prepareFrom
  simp only [Worker.passed, Bool.or_eq_true, Bool.and_eq_true, decide_eq_true_eq, Fin.lt_def] at h
  omega

theorem WorkMove.passed {w : Worker n} (h : WorkMove s w) (hw : w.polls = true) :
    s.worker.polls = true ∧ ∀ i, s.worker.passed i = true → w.passed i = true := by
  cases h with
  | exit | pollErr | batchEnd => cases hw
  | unused h | noCas h => rw [h]; exact ⟨rfl, fun i hp => passed_next hp⟩
  | used h | zombie h | alive h | active h | inactive h => rw [h]; exact ⟨rfl, fun i => by simp [Worker.passed]⟩
  | invalid h | other h => rw [h]; exact ⟨rfl, fun _ _ => passed_findFrom⟩
  | quiet h | ready h | valid h | found h | noCb h | enter h | fire h | skip h | ret h =>
    rw [h]
    exact ⟨rfl, fun _ _ => rfl⟩

/-- With its next step the worker writes to `pfds`. -/
def Worker.lists : Worker n → Bool
  | .top | .prepare _ .push => true
  | _ => false

/-- **What a step of the worker does to the pollfds**: the pass begins anew, a slot is pushed, or they stay, and with
them the slots that the pass is through with. -/
inductive PfdsMove (s s' : Sys n m) : Prop
  | pass : s.worker = .top → s.workState = .normal →
      s' = (s.setPfds [⟨s.eventfd, .none⟩]).work (prepareFrom n 0) → PfdsMove s s'
  | push (k : Fin n) : s.worker = .prepare k .push →
      s' = (s.setPfds (s.pfds ++ [⟨s.fd k, .none⟩])).work (.prepare k .clearSched) → PfdsMove s s'
  | keep : (s.worker = .top → s.workState = .exit) → (∀ k, s.worker ≠ .prepare k .push) →
      s'.pfds.map Pollfd.fd = s.pfds.map Pollfd.fd →
      (s'.worker.polls = true → s.worker.polls = true ∧
        ∀ i, s.worker.passed i = true → (s.state i).has .used = true →
          s'.worker.passed i = true ∧ (s'.state i).has .used = true ∧ s'.fd i = s.fd i) → PfdsMove s s'

theorem Move.pfds {r : Reply} (h : Move s (.work r) s') : PfdsMove s s' := by
  have hkeep : ∀ w : Worker n, s.worker = w → w.lists = false → s'.pfds.map Pollfd.fd = s.pfds.map Pollfd.fd →
      (s'.worker.polls = true → w.polls = true ∧ ∀ i, w.passed i = true → (s.state i).has .used = true →
        s'.worker.passed i = true ∧ (s'.state i).has .used = true ∧ s'.fd i = s.fd i) → PfdsMove s s' := by
    rintro w rfl hl hp hk
    refine .keep (fun e => ?_) (fun k e => ?_) hp hk
    · rw [e] at hl
      cases hl
    · rw [e] at hl
      cases hl
  cases h with
  | work hm =>
    refine .keep (fun e => ?_) (fun k e => ?_) rfl fun hw =>
      ⟨(hm.passed hw).1, fun i hp hu => ⟨(hm.passed hw).2 i hp, hu, rfl⟩⟩
    · cases hm <;> simp_all
    · cases hm <;> simp_all
  | pass hw hn => exact .pass hw hn rfl
  | push hw => exact .push _ hw rfl
  | pollEvent hw hp => exact hkeep _ hw rfl (by simp [hp, Function.comp_def]) fun hp => absurd hp Bool.false_ne_true
  | pollTimers hw hp =>
    exact hkeep _ hw rfl (by simp [hp, Function.comp_def]) fun _ => ⟨rfl, fun _ _ hu => ⟨rfl, hu, rfl⟩⟩
  | eventRead hw => exact hkeep _ hw rfl rfl fun hp => absurd hp Bool.false_ne_true
  | close hw => exact hkeep _ hw rfl rfl fun _ => ⟨rfl, fun i hp hu => ⟨hp, hu, rfl⟩⟩
  | lock hw | unlock hw => exact hkeep _ hw rfl rfl fun _ => ⟨rfl, fun _ _ hu => ⟨rfl, hu, rfl⟩⟩
  | deinitLock hw => exact hkeep _ hw rfl rfl fun _ => ⟨rfl, fun i hp hu => ⟨passed_next hp, hu, rfl⟩⟩
  | @reset r k hw =>
    refine hkeep _ hw rfl rfl fun _ => ⟨rfl, fun i hp hu => ⟨hp, used_of_update hu rfl fun e => ?_, rfl⟩⟩
    have hlt : i < k := by simpa [Worker.passed] using hp
    exact absurd e (ne_of_gt hlt)
  | cas hw hc =>
    refine hkeep _ hw rfl rfl fun _ => ⟨rfl, fun i hp hu => ⟨hp, used_of_update hu rfl fun e => ?_, rfl⟩⟩
    simp [(has_of_maskCas hc).2, e, hu]
  | clearSched hw =>
    refine hkeep _ hw rfl rfl fun _ => ⟨rfl, fun i hp hu => ⟨passed_next hp, used_of_update hu rfl fun e => ?_, rfl⟩⟩
    simp [bitSched, e, hu]
  | clearActive hw =>
    refine hkeep _ hw rfl rfl fun _ => ⟨rfl, fun i hp hu => ⟨rfl, used_of_update hu rfl fun e => ?_, rfl⟩⟩
    simp [bitActive, e, hu]
  | @read r j pfd hw =>
    refine hkeep _ hw rfl rfl fun _ => ⟨rfl, fun i hp hu => ⟨?_, hu, rfl⟩⟩
    rw [Sys.work_worker]
    split
    · exact passed_findFrom
    · rfl

/-- A step that leaves the descriptors of `pfds` alone. -/
theorem Polled.keep (hi : Polled s) (hp : s'.pfds.map Pollfd.fd = s.pfds.map Pollfd.fd) (he : s'.eventfd = s.eventfd)
    (hw : s'.worker.polls = true → s.worker.polls = true ∧
      ∀ i, s.worker.passed i = true → (s.state i).has .used = true →
        s'.worker.passed i = true ∧ (s'.state i).has .used = true ∧ s'.fd i = s.fd i) : Polled s' := by
  intro h pfd hm
  obtain ⟨h1, h2⟩ := hw h
  have hfd : pfd.fd ∈ s.pfds.map Pollfd.fd := hp ▸ List.mem_map_of_mem hm
  obtain ⟨pfd', hm', hf⟩ := List.mem_map.mp hfd
  rw [he, ← hf]
  rcases hi h1 pfd' hm' with h3 | ⟨i, h3, h4, h5⟩
  · exact .inl h3
  · obtain ⟨h6, h7, h8⟩ := h2 i h3 h4
    exact .inr ⟨i, h6, h7, h5.trans h8.symm⟩

/-- One step of the worker. -/
theorem Polled.work {r : Reply} (hi : Polled s) (ho : Own s) (h : Move s (.work r) s') : Polled s' := by
  cases h.pfds with
  | pass _ _ e =>
    subst e
    intro _ pfd hm
    rw [List.mem_singleton.mp hm]
    exact .inl rfl
  | push k hw e =>
    subst e
    intro _ pfd hm
    rcases List.mem_append.mp hm with h | h
    · rcases hi (by rw [hw]; rfl) pfd h with h1 | ⟨i, h1, h2⟩
      · exact .inl h1
      · rw [hw] at h1
        exact .inr ⟨i, by simp_all [Worker.passed], h2⟩
    · rw [List.mem_singleton.mp h]
      exact .inr ⟨k, by simp [Worker.passed], ho.held k (by simp [hw]), rfl⟩
  | keep _ _ hp hk => exact hi.keep hp h.frame_eventfd hk

/-- One step of the system. -/
theorem Polled.step {a : Act n m} (hi : Polled s) (ho : Own s) (h : Move s a s') : Polled s' := by
  cases a with
  | work r => exact hi.work ho h
  | step th r =>
    obtain ⟨h1, h2⟩ := h.frame_worker nofun
    refine hi.keep (congrArg _ h2) h.frame_eventfd fun hw => ?_
    rw [h1] at hw ⊢
    refine ⟨hw, fun i hp hu => ⟨hp, h.keeps_used ho hu fun e => ?_⟩⟩
    rw [ho.joined th (afterJoin_of_closed e)] at hw
    cases hw
  | tick | expire => cases h; exact hi
  | call th op =>
    cases h with
    | enter _ _ he =>
      subst he
      exact hi.keep (by simp) (by simp) (by simp +contextual)

/-- **Every pollfd stands for a slot in use**, in every run with linear handles. -/
theorem polled_of_reach (hr : (system n m).Reach Linear s) : Polled s := by
  refine hr.invariant ?_ fun s a s' hr hi _ h => hi.step (own_of_reach hr) (step_move h)
  rintro s ⟨fd, -, rfl⟩
  exact nofun

end Gabs.Timer.Posix
