import Gabs.Timer.Posix.Descriptors
import Gabs.Timer.Posix.Handles

/-!
# The POSIX timer: the lifecycle of slots and timerfds

- `Life`: a history of the timerfds (which one is open behind a descriptor, what each `close` met) and of the installed
  timers;
- `Life.Ok`: the invariant between history and state;
- `Swept`: the loop of `gabs_timer_ctx_deinit` leaves zero words behind;
- `slot_lifecycle`: installed timers have their own slots and open timerfds, a timerfd is closed at most once, and
  after `deinit` those of all installs have been closed and every word is zero.
-/

namespace Gabs.Timer.Posix

open Gabs.Lib

variable {n m : Nat}

/-! ## History -/

/-- Timerfds are numbered in the order of their creation. `obj` is the one open behind a descriptor, `made` the last one
created for a slot, `closed` what the calls of `close` met, `installed` the timerfds of all installs that returned a
timer, `handles` those of the installed timers with their slots: from the return of the install to that of the
uninstall, or to the deinit. -/
structure Life (n : Nat) where
  next : Nat
  obj : Int → Option Nat
  made : Fin n → Option Nat
  closed : List (Option Nat)
  installed : List (Option Nat)
  handles : List (Option Nat × Fin n)

def Life.init : Life n := ⟨0, fun _ => none, fun _ => none, [], [], []⟩

/-- `timerfd_create` returned `d` for slot `i`. -/
def Life.create (l : Life n) (d : Int) (i : Fin n) : Life n :=
  { l with
    next := l.next + 1
    obj := Function.update l.obj d (some l.next)
    made := Function.update l.made i (some l.next) }

/-- `close(d)`. -/
def Life.close (l : Life n) (d : Int) : Life n :=
  { l with obj := Function.update l.obj d none, closed := l.obj d :: l.closed }

/-- An install returned slot `i`. -/
def Life.install (l : Life n) (i : Fin n) : Life n :=
  { l with installed := l.made i :: l.installed, handles := (l.made i, i) :: l.handles }

/-- The uninstall of slot `t` returned. -/
def Life.uninstall (l : Life n) (t : Fin n) : Life n := { l with handles := l.handles.filter fun h => h.2 ≠ t }

/-- The history after a step of the worker. -/
def Life.work (s : Sys n m) (l : Life n) : Life n :=
  match s.worker with
  | .prepare i .close => if 0 ≤ s.fd i then l.close (s.fd i) else l
  | _ => l

/-- The history after a step of a call. -/
def Life.call (s : Sys n m) (l : Life n) (r : Reply) : Call n → Life n
  | .install _ _ (.create i) => match r with | .fd d => l.create d i | _ => l
  | .install _ _ (.errClose i) => l.close (s.fd i)
  | .install _ _ (.publish i) => l.install i
  | .uninstall t .zombie => l.uninstall t
  | .deinit (.close i) => if 0 ≤ s.fd i then l.close (s.fd i) else l
  | _ => l

/-- The history after one more step. -/
def Life.record (s : Sys n m) (a : Act n m) (_ : Sys n m) (l : Life n) : Life n :=
  match a with
  | .work _ => l.work s
  | .call _ .deinit => { l with handles := [] }
  | .step th r => l.call s r (s.calls th)
  | _ => l

/-- The system with its history. -/
def lives (n m : Nat) : Lts (Sys n m × Life n) (Act n m) := (system n m).record .init Life.record

/-- `gabs_timer_ctx_deinit` has returned. -/
def Sys.Closed (s : Sys n m) : Prop := s.workState = .exit ∧ ∀ th, s.calls th = .idle

instance (s : Sys n m) : Decidable s.Closed := inferInstanceAs (Decidable (_ ∧ _))

/-! ## The invariant -/

/-- **The history agrees with the state.** -/
structure Life.Ok (s : Sys n m) (l : Life n) : Prop where
  open_iff : ∀ d, l.obj d = none ↔ s.fds d = none
  lt_next : ∀ d k, l.obj d = some k → k < l.next
  made : ∀ i, s.Holds i → l.made i = l.obj (s.fd i)
  obj_inj : ∀ d d' k, l.obj d = some k → l.obj d' = some k → d = d'
  closed_some : none ∉ l.closed
  closed_lt : ∀ k, some k ∈ l.closed → k < l.next ∧ ∀ d, l.obj d ≠ some k
  closed_once : l.closed.Nodup
  installed_some : none ∉ l.installed
  installed : ∀ k ∈ l.installed, k ∈ l.closed ∨ ∃ i, s.Owns i ∧ l.obj (s.fd i) = k
  handle : ∀ k i, (k, i) ∈ l.handles → s.Owns i ∧ (s.state i).has .zombie = false ∧ l.obj (s.fd i) = k
  slots : (l.handles.map Prod.snd).Nodup
  deinit : ∀ th, (s.calls th).isDeinit = true → l.handles = []

variable {s s' : Sys n m} {l : Life n}

/-- A step that opens, closes, installs and uninstalls nothing. -/
theorem Life.Ok.keep (hi : l.Ok s) (hfds : ∀ d, s'.fds d = none ↔ s.fds d = none)
    (hholds : ∀ i, s'.Holds i → s.Holds i ∧ s'.fd i = s.fd i) (howns : ∀ i, s.Owns i → s'.Owns i ∧ s'.fd i = s.fd i)
    (hzombie : ∀ k i, (k, i) ∈ l.handles → (s.state i).has .zombie = false → (s'.state i).has .zombie = false)
    (hdeinit : ∀ th, (s'.calls th).isDeinit = true → (s.calls th).isDeinit = true) : l.Ok s' := by
  refine { hi with open_iff := ?_, made := ?_, installed := ?_, handle := ?_, deinit := ?_ }
  · intro d
    exact (hi.open_iff d).trans (hfds d).symm
  · intro i h
    obtain ⟨h1, h2⟩ := hholds i h
    rw [h2, hi.made i h1]
  · intro k hk
    rcases hi.installed k hk with h | ⟨i, h1, h2⟩
    · exact .inl h
    · exact .inr ⟨i, (howns i h1).1, by rw [(howns i h1).2, h2]⟩
  · intro k i h
    obtain ⟨h1, h2, h3⟩ := hi.handle k i h
    exact ⟨(howns i h1).1, hzombie k i h h2, by rw [(howns i h1).2, h3]⟩
  · intro th h
    exact hi.deinit th (hdeinit th h)

/-- `close` of an open timerfd that belongs to no installed timer. -/
theorem Life.Ok.close (hi : l.Ok s) {d : Int} (hopen : s.fds d ≠ none) (hfds : s'.fds = Function.update s.fds d none)
    (hds : Descriptors s') (hholds : ∀ i, s'.Holds i → s.Holds i ∧ s'.fd i = s.fd i)
    (howns : ∀ i, s.Owns i → s.fd i ≠ d → s'.Owns i ∧ s'.fd i = s.fd i)
    (hhandle : ∀ k i, (k, i) ∈ l.handles → s.fd i ≠ d) (hstate : s'.state = s.state)
    (hdeinit : ∀ th, (s'.calls th).isDeinit = true → (s.calls th).isDeinit = true) : (l.close d).Ok s' := by
  obtain ⟨k, hk⟩ := Option.ne_none_iff_exists'.mp (fun e => hopen ((hi.open_iff d).mp e))
  have hself : (l.close d).obj d = none := Function.update_self ..
  have hne : ∀ d', d' ≠ d → (l.close d).obj d' = l.obj d' := fun d' h => Function.update_of_ne h ..
  have hobj : ∀ d' k', (l.close d).obj d' = some k' → d' ≠ d ∧ l.obj d' = some k' := by
    intro d' k' h
    have hn : d' ≠ d := by
      rintro rfl
      rw [hself] at h
      cases h
    exact ⟨hn, hne d' hn ▸ h⟩
  refine { installed_some := hi.installed_some, slots := hi.slots, open_iff := ?_, lt_next := ?_, made := ?_,
           obj_inj := ?_, closed_some := ?_, closed_lt := ?_, closed_once := ?_, installed := ?_, handle := ?_,
           deinit := ?_ }
  · intro d'
    rw [hfds]
    rcases eq_or_ne d' d with rfl | hn
    · simp [hself]
    · rw [hne d' hn, Function.update_of_ne hn]
      exact hi.open_iff d'
  · intro d' k' h
    exact hi.lt_next d' k' (hobj d' k' h).2
  · intro i h
    obtain ⟨h1, h2⟩ := hholds i h
    have hn : s'.fd i ≠ d := fun e => (hds.opened i h).2 (by rw [e, hfds]; exact Function.update_self ..)
    rw [hne _ hn, h2]
    exact hi.made i h1
  · intro d1 d2 k' h1 h2
    exact hi.obj_inj d1 d2 k' (hobj d1 k' h1).2 (hobj d2 k' h2).2
  · intro h
    rcases List.mem_cons.mp h with h | h
    · rw [hk] at h
      cases h
    · exact hi.closed_some h
  · intro k' h
    rcases List.mem_cons.mp h with h | h
    · rw [hk] at h
      cases h
      refine ⟨hi.lt_next d k hk, fun d' h' => ?_⟩
      obtain ⟨hn, h'⟩ := hobj d' k h'
      exact hn (hi.obj_inj d' d k h' hk)
    · obtain ⟨h1, h2⟩ := hi.closed_lt k' h
      exact ⟨h1, fun d' h' => h2 d' (hobj d' k' h').2⟩
  · refine List.nodup_cons.mpr ⟨fun h => ?_, hi.closed_once⟩
    rw [hk] at h
    exact (hi.closed_lt k h).2 d hk
  · intro k' h
    rcases hi.installed k' h with h | ⟨i, h1, h2⟩
    · exact .inl (List.mem_cons_of_mem _ h)
    · rcases eq_or_ne (s.fd i) d with e | hn
      · rw [← h2, e]
        exact .inl List.mem_cons_self
      · obtain ⟨h3, h4⟩ := howns i h1 hn
        exact .inr ⟨i, h3, by rw [h4, hne _ hn, h2]⟩
  · intro k' i h
    obtain ⟨h1, h2, h3⟩ := hi.handle k' i h
    have hn := hhandle k' i h
    obtain ⟨h4, h5⟩ := howns i h1 hn
    exact ⟨h4, by rw [hstate]; exact h2, by rw [h5, hne _ hn, h3]⟩
  · intro th h
    exact hi.deinit th (hdeinit th h)

/-- `timerfd_create`. -/
theorem Life.Ok.create (hi : l.Ok s) (hds : Descriptors s) {d : Int} {t : Timerfd} {k : Fin n} (hnone : s.fds d = none)
    (hfds : s'.fds = Function.update s.fds d (some t)) (hfd : s'.fd k = d)
    (hholds : ∀ i, i ≠ k → s'.Holds i → s.Holds i ∧ s'.fd i = s.fd i)
    (howns : ∀ i, s.Owns i → s'.Owns i ∧ s'.fd i = s.fd i) (hstate : s'.state = s.state)
    (hdeinit : ∀ th, (s'.calls th).isDeinit = true → (s.calls th).isDeinit = true) : (l.create d k).Ok s' := by
  have hne : ∀ d', d' ≠ d → (l.create d k).obj d' = l.obj d' := fun d' h => Function.update_of_ne h ..
  have hself : (l.create d k).obj d = some l.next := Function.update_self ..
  have hused : ∀ i, s.Holds i → s.fd i ≠ d := fun i h e => (hds.opened i h).2 (e ▸ hnone)
  have hold : ∀ d' k', (l.create d k).obj d' = some k' → d' = d ∧ k' = l.next ∨ d' ≠ d ∧ l.obj d' = some k' := by
    intro d' k' h
    rcases eq_or_ne d' d with rfl | hn
    · rw [hself] at h
      exact .inl ⟨rfl, (Option.some.inj h).symm⟩
    · exact .inr ⟨hn, hne d' hn ▸ h⟩
  refine { closed_some := hi.closed_some, closed_once := hi.closed_once, installed_some := hi.installed_some,
           slots := hi.slots, open_iff := ?_, lt_next := ?_, made := ?_, obj_inj := ?_, closed_lt := ?_,
           installed := ?_, handle := ?_, deinit := ?_ }
  · intro d'
    rw [hfds]
    rcases eq_or_ne d' d with rfl | hn
    · simp [hself]
    · rw [hne d' hn, Function.update_of_ne hn]
      exact hi.open_iff d'
  · intro d' k' h
    rcases hold d' k' h with ⟨-, rfl⟩ | ⟨-, h⟩
    · exact Nat.lt_succ_self _
    · exact Nat.lt_succ_of_lt (hi.lt_next d' k' h)
  · intro i h
    show Function.update l.made k (some l.next) i = (l.create d k).obj (s'.fd i)
    by_cases e : i = k
    · rw [e, hfd, hself, Function.update_self]
    · obtain ⟨h1, h2⟩ := hholds i e h
      rw [Function.update_of_ne e, h2, hne _ (hused i h1)]
      exact hi.made i h1
  · intro d1 d2 k' h1 h2
    rcases hold d1 k' h1 with ⟨e1, rfl⟩ | ⟨-, h1'⟩
    · rcases hold d2 l.next h2 with ⟨e2, -⟩ | ⟨-, h2'⟩
      · rw [e1, e2]
      · exact absurd (hi.lt_next d2 _ h2') (lt_irrefl _)
    · rcases hold d2 k' h2 with ⟨-, rfl⟩ | ⟨-, h2'⟩
      · exact absurd (hi.lt_next d1 _ h1') (lt_irrefl _)
      · exact hi.obj_inj d1 d2 k' h1' h2'
  · intro k' h
    obtain ⟨h1, h2⟩ := hi.closed_lt k' h
    refine ⟨Nat.lt_succ_of_lt h1, fun d' h' => ?_⟩
    rcases hold d' k' h' with ⟨-, rfl⟩ | ⟨-, h'⟩
    · exact lt_irrefl _ h1
    · exact h2 d' h'
  · intro k' h
    rcases hi.installed k' h with h | ⟨i, h1, h2⟩
    · exact .inl h
    · obtain ⟨h3, h4⟩ := howns i h1
      exact .inr ⟨i, h3, by rw [h4, hne _ (hused i (.inl h1)), h2]⟩
  · intro k' i h
    obtain ⟨h1, h2, h3⟩ := hi.handle k' i h
    obtain ⟨h4, h5⟩ := howns i h1
    exact ⟨h4, by rw [hstate]; exact h2, by rw [h5, hne _ (hused i (.inl h1)), h3]⟩
  · intro th h
    exact hi.deinit th (hdeinit th h)

/-- An install returns. -/
theorem Life.Ok.install (hi : l.Ok s) {i : Fin n} (hunused : (s.state i).has .used = false)
    (hopen : l.obj (s.fd i) ≠ none) (hheld : s.Holds i) (hholds : ∀ k, s'.Holds k → s.Holds k) (howned : s'.Owns i)
    (halive : (s'.state i).has .zombie = false) (hfds : s'.fds = s.fds) (hfd : s'.fd = s.fd)
    (howns : ∀ k, s.Owns k → s'.Owns k) (hstate : ∀ k, k ≠ i → s'.state k = s.state k)
    (hdeinit : ∀ th, (s'.calls th).isDeinit = false) : (l.install i).Ok s' := by
  have hmade := hi.made i hheld
  have hother : ∀ k j, (k, j) ∈ l.handles → j ≠ i := by
    rintro k j h rfl
    have hused := (hi.handle k j h).1.1
    rw [hunused] at hused
    cases hused
  refine { hi with open_iff := ?_, made := ?_, installed_some := ?_, installed := ?_, handle := ?_, slots := ?_,
                   deinit := ?_ }
  · rw [hfds]
    exact hi.open_iff
  · intro k h
    rw [hfd]
    exact hi.made k (hholds k h)
  · intro h
    rcases List.mem_cons.mp h with e | h
    · exact hopen (hmade ▸ e.symm)
    · exact hi.installed_some h
  · intro k h
    rw [hfd]
    rcases List.mem_cons.mp h with rfl | h
    · exact .inr ⟨i, howned, hmade.symm⟩
    · rcases hi.installed k h with h | ⟨j, h1, h2⟩
      · exact .inl h
      · exact .inr ⟨j, howns j h1, h2⟩
  · intro k j h
    rw [hfd]
    rcases List.mem_cons.mp h with h | h
    · cases h
      exact ⟨howned, halive, hmade.symm⟩
    · obtain ⟨h1, h2, h3⟩ := hi.handle k j h
      exact ⟨howns j h1, by rw [hstate j (hother k j h)]; exact h2, h3⟩
  · refine List.nodup_cons.mpr ⟨fun h => ?_, hi.slots⟩
    obtain ⟨⟨k, j⟩, h1, rfl⟩ := List.mem_map.mp h
    exact hother k j h1 rfl
  · intro th h
    rw [hdeinit th] at h
    cases h

/-- An uninstall returns. -/
theorem Life.Ok.uninstall (hi : l.Ok s) {t : Fin n} (hholds : ∀ k, s'.Holds k → s.Holds k) (hfds : s'.fds = s.fds)
    (hfd : s'.fd = s.fd) (howns : ∀ k, s.Owns k → s'.Owns k) (hstate : ∀ k, k ≠ t → s'.state k = s.state k)
    (hdeinit : ∀ th, (s'.calls th).isDeinit = true → (s.calls th).isDeinit = true) : (l.uninstall t).Ok s' := by
  refine { hi with open_iff := ?_, made := ?_, installed := ?_, handle := ?_, slots := ?_, deinit := ?_ }
  · rw [hfds]
    exact hi.open_iff
  · intro k h
    rw [hfd]
    exact hi.made k (hholds k h)
  · intro k h
    rw [hfd]
    rcases hi.installed k h with h | ⟨j, h1, h2⟩
    · exact .inl h
    · exact .inr ⟨j, howns j h1, h2⟩
  · intro k j h
    rw [hfd]
    obtain ⟨h, hn⟩ := List.mem_filter.mp h
    obtain ⟨h1, h2, h3⟩ := hi.handle k j h
    exact ⟨howns j h1, by rw [hstate j (of_decide_eq_true hn)]; exact h2, h3⟩
  · exact hi.slots.sublist (List.filter_sublist.map _)
  · intro th h
    rw [Life.uninstall, hi.deinit th (hdeinit th h)]
    rfl

/-- One step of the worker. -/
theorem Life.Ok.work {r : Reply} (hi : l.Ok s) (ho : Own s) (hds : Descriptors s) (hds' : Descriptors s')
    (h : Move s (.work r) s') : (l.work s).Ok s' := by
  have howns := fun i hio => h.owns (i := i) ho hio
  have hholds := fun i hh => h.holds (i := i) id hh
  have hzombie : ∀ i, (s.state i).has .zombie = false → (s'.state i).has .zombie = false := by
    intro i hz
    have hof := h.zombie_of (i := i) id
    grind
  have hdeinit : ∀ th, (s'.calls th).isDeinit = true → (s.calls th).isDeinit = true := by
    intro th e
    rwa [h.frame_calls] at e
  have hkeep : (∀ i, s.worker ≠ .prepare i .close) → (∀ d, s'.fds d = none ↔ s.fds d = none) → (l.work s).Ok s' := by
    intro hn hfds
    have hr : l.work s = l := by
      unfold Life.work
      split
      · exact absurd ‹_› (hn _)
      · rfl
    rw [hr]
    exact hi.keep hfds hholds (fun i hio => howns i hio (hn i)) (fun _ i _ => hzombie i) hdeinit
  cases h with
  | @close r k hcl =>
    have hk := ho.owns_of_close hcl
    have hfd := hds.opened k (.inl hk)
    have hr : l.work s = l.close (s.fd k) := by simp [Life.work, hcl, hfd.1]
    rw [hr]
    refine hi.close hfd.2 (if_pos hfd.1) hds' hholds (fun i hio hn => howns i hio fun e => ?_) (fun k' i hm e => ?_) rfl
      hdeinit
    · rw [Act.closes, hcl] at e
      cases e
      exact hn rfl
    · obtain ⟨h1, h2, -⟩ := hi.handle k' i hm
      have hik := hds.distinct i k (.inl h1) (.inl hk) e
      subst hik
      rw [ho.cleaned i (by simp [hcl])] at h2
      cases h2
  | work hm =>
    refine hkeep (fun i e => ?_) fun _ => Iff.rfl
    cases hm <;> simp_all
  | @read r j pfd h =>
    refine hkeep (fun i e => ?_) fun d => ?_
    · rw [h] at e
      cases e
    · simp only [Sys.work_fds, readFd_fds, Function.update_apply]
      split
      · rename_i e
        subst e
        exact Option.map_eq_none_iff
      · exact Iff.rfl
  | pass h | reset h | deinitLock h | cas h | push h | clearSched h | pollEvent h | pollTimers h | eventRead h | lock h
  | unlock h | clearActive h =>
    refine hkeep (fun i e => ?_) fun _ => Iff.rfl
    rw [h] at e
    cases e

/-- With its next step the call opens and closes no timerfd, and installs and uninstalls no timer. -/
def Call.plain : Call n → Bool
  | .install _ _ (.create _) | .install _ _ (.errClose _) | .install _ _ (.publish _) | .uninstall _ .zombie
  | .deinit (.close _) => false
  | _ => true

theorem Life.call_of_plain {r : Reply} {c : Call n} (h : c.plain = true) : l.call s r c = l := by
  unfold Life.call
  split <;> first | rfl | cases h

theorem CallMove.plain {th : Thread m} {r : Reply} {c : Call n} (h : CallMove s th r c) :
    (s.calls th).plain = true := by
  cases h with
  | initErr hc | start hc | settimeErr hc | stopErr hc | lockOwn hc | unlockOwn hc | join hc | used hc =>
    rw [hc]
    rfl

theorem DoneMove.plain {th : Thread m} {v : Ret n} (h : DoneMove s th v) : (s.calls th).plain = true := by
  cases h with
  | busy hc | active hc =>
    rw [hc]
    rfl

/-- One step of a call. -/
theorem Life.Ok.call {th : Thread m} {r : Reply} (hi : l.Ok s) (ho : Own s) (hds : Descriptors s)
    (hds' : Descriptors s') (hcl : Closing s) (h : Move s (.step th r) s') : (l.call s r (s.calls th)).Ok s' := by
  have howns := fun i hio => h.owns (i := i) ho hio
  have hholds := fun i hn hh => h.holds (i := i) hn hh
  have hzombie : ∀ i, s.calls th ≠ .uninstall i .zombie → (s.state i).has .zombie = false →
      (s'.state i).has .zombie = false := by
    intro i hn hz
    have hof := h.zombie_of (i := i) hn
    grind
  have hdeinit : ∀ th', (s'.calls th').isDeinit = true → (s.calls th').isDeinit = true := by
    intro th' e
    rcases eq_or_ne th' th with rfl | hn
    · exact h.isDeinit e
    · rwa [h.frame_others.2 th' hn] at e
  have hkeep : (s.calls th).plain = true → (∀ d, s'.fds d = none ↔ s.fds d = none) →
      (l.call s r (s.calls th)).Ok s' := by
    intro hplain hfds
    have hne : ∀ c : Call n, c.plain = false → s.calls th ≠ c := by
      rintro c hc rfl
      rw [hplain] at hc
      cases hc
    rw [call_of_plain hplain]
    refine hi.keep hfds (fun i => hholds i ?_) (fun i hio => howns i hio (hne _ rfl))
      (fun _ i _ => hzombie i (hne _ rfl)) hdeinit
    rintro ⟨cb, arg, e⟩
    exact hne _ rfl e
  cases h with
  | goto hm => exact hkeep hm.plain fun _ => Iff.rfl
  | done hm => exact hkeep hm.plain fun _ => Iff.rfl
  | clear hm =>
    generalize s.calls th = c at hm hkeep ⊢
    cases hm <;> exact hkeep rfl fun _ => Iff.rfl
  | settime hm hf =>
    generalize s.calls th = c at hm hkeep ⊢
    cases hm <;> exact hkeep rfl (update_eq_none hf)
  | taken hc | claim hc | fill hc | initLock hc | errReset hc | setSched hc | started hc | stopped hc
  | unStopped hc | unLock hc | unUnlock hc | deinitExit hc | deinitTrigger hc | deinitEvent hc | deinitSkip hc
  | deinitReset hc | deinitMutex hc => exact hkeep (by rw [hc]; rfl) fun _ => Iff.rfl
  | @createErr _ e cb arg k hc =>
    have hm : (s.calls th).claims = some k := by rw [hc]; rfl
    have hstay := fun i hio => howns i hio (by simp [Act.closes, hc])
    have hbury := fun i => hzombie i (by simp [hc])
    rw [hc]
    refine hi.keep (fun _ => Iff.rfl) (fun i hh => hholds i ?_ hh) hstay (fun _ i _ => hbury i) hdeinit
    rintro ⟨cb', arg', e⟩
    rw [hc] at e
    cases e
    exact not_holds hh ho rfl hm (by simp [Call.opened]) rfl
  | @create _ cb arg k d hc hf =>
    rw [hc]
    have hnone : s.fds d = none := by
      simp only [Sys.fresh, Bool.and_eq_true, Option.isNone_iff_eq_none] at hf
      exact hf.1.2
    have hother := fun i (hn : i ≠ k) => hholds i (by simp [Act.creates, hc, hn.symm])
    have hstay := fun i hio => howns i hio (by simp [Act.closes, hc])
    exact hi.create hds hnone rfl (Function.update_self ..) hother hstay rfl hdeinit
  | @errClose _ _ cb arg k hc =>
    rw [hc]
    have hop : s.Holds k := .inr ⟨th, by rw [hc]; rfl⟩
    have hne : ∀ i, s.Owns i → s.fd i ≠ s.fd k := by
      intro i hio e
      have hik := hds.distinct i k (.inl hio) hop e
      subst hik
      have hunused := (ho.claimed th i (by rw [hc]; rfl)).2
      rw [hio.1] at hunused
      cases hunused
    have hother := fun i => hholds i (by simp [Act.creates, hc])
    have hstay := fun i hio (_ : s.fd i ≠ s.fd k) => howns i hio (by simp [Act.closes, hc])
    have hhandle := fun k' i hm => hne i (hi.handle k' i hm).1
    exact hi.close (hds.opened k hop).2 rfl hds' hother hstay hhandle rfl hdeinit
  | @publish _ _ cb arg k hc =>
    rw [hc]
    have hm : (s.calls th).claims = some k := by rw [hc]; rfl
    have hop : s.Holds k := .inr ⟨th, by rw [hc]; rfl⟩
    have hopen : l.obj (s.fd k) ≠ none := fun e => (hds.opened k hop).2 ((hi.open_iff _).mp e)
    obtain ⟨-, -, hzk, hhk⟩ := ho.mine hm
    have hquiet : ∀ th', (s.calls th').isDeinit = false := by
      intro th'
      by_contra e
      rw [Bool.not_eq_false] at e
      rcases eq_or_ne th' th with rfl | hn
      · rw [hc] at e
        cases e
      · have hidle := ho.deinit th' th e hn.symm
        rw [hc] at hidle
        cases hidle
    have hquiet' : ∀ th',
        (((s.setState k (maskSet (s.state k) bitUsed)).done th (.timer (some k))).calls th').isDeinit = false := by
      intro th'
      by_contra e
      rw [Bool.not_eq_false] at e
      have hin := hdeinit th' e
      rw [hquiet th'] at hin
      cases hin
    have hother := fun i hh => (hholds i (by simp [Act.creates, hc]) hh).1
    have hstay := fun i hio => (howns i hio (by simp [Act.closes, hc])).1
    refine hi.install (ho.claimed th k hm).2 hopen hop hother ⟨?_, ?_, ?_⟩ ?_ rfl rfl hstay
      (fun i hn => Function.update_of_ne hn ..) hquiet'
    · simp [bitUsed]
    · intro e
      have hholds := holds_of_closed (w := s.worker) e
      rw [hhk] at hholds
      cases hholds
    · intro th' e
      have hin := hquiet' th'
      rw [isDeinit_of_afterJoin (afterJoin_of_closed e)] at hin
      cases hin
    · simp [bitUsed, hzk]
  | @zombie _ _ t hc =>
    rw [hc]
    have hother := fun i hh => (hholds i (by simp [Act.creates, hc]) hh).1
    have hstay := fun i hio => (howns i hio (by simp [Act.closes, hc])).1
    exact hi.uninstall hother rfl rfl hstay (fun i hn => Function.update_of_ne hn ..) hdeinit
  | @deinitClose _ _ k hc =>
    have hk := ho.owns_of_deinit hcl hc
    have hfd := hds.opened k (.inl hk)
    have hr : l.call s r (s.calls th) = l.close (s.fd k) := by simp [Life.call, hc, hfd.1]
    have hnone : l.handles = [] := hi.deinit th (by rw [hc]; rfl)
    have hother := fun i => hholds i (by simp [Act.creates, hc])
    rw [hr]
    refine hi.close hfd.2 (if_pos hfd.1) hds' hother (fun i hio hn => howns i hio fun e => ?_) (fun k' i hm => ?_) rfl
      hdeinit
    · rw [Act.closes, hc] at e
      cases e
      exact hn rfl
    · rw [hnone] at hm
      cases hm

/-- One step of the system. -/
theorem Life.Ok.step {a : Act n m} (hi : l.Ok s) (ho : Own s) (hds : Descriptors s) (hcl : Closing s)
    (h : Move s a s') : (Life.record s a s' l).Ok s' := by
  have hds' := hds.step ho hcl h
  cases a with
  | work r => exact hi.work ho hds hds' h
  | step th r => exact hi.call ho hds hds' hcl h
  | tick =>
    cases h
    exact hi.keep (fun _ => Iff.rfl) (fun i h => ⟨h, rfl⟩) (fun i h => ⟨h, rfl⟩) (fun _ _ _ h => h) fun _ h => h
  | expire =>
    cases h with
    | expire hf =>
      refine hi.keep ?_ (fun i h => ⟨h, rfl⟩) (fun i h => ⟨h, rfl⟩) (fun _ _ _ h => h) fun _ h => h
      exact update_eq_none hf
  | call th op =>
    have hw := fun i hio => h.owns (i := i) ho hio id
    have hb := fun i hh => h.holds (i := i) id hh
    cases h with
    | enter _ _ he =>
      subst he
      by_cases hop : op = .deinit
      · subst hop
        refine { hi with made := fun i h => hi.made i (hb i h).1, installed := fun k hk => ?_, handle := nofun,
                         slots := List.nodup_nil, deinit := fun _ _ => rfl }
        rcases hi.installed k hk with h | ⟨i, h1, h2⟩
        · exact .inl h
        · exact .inr ⟨i, (hw i h1).1, h2⟩
      · have hr : Life.record s (.call th op) (enter s th op) l = l := by
          cases op <;> first | rfl | exact absurd rfl hop
        rw [hr]
        refine hi.keep (by simp) hb hw (by simp) fun th' e => ?_
        rw [enter_calls, Function.update_apply] at e
        split at e
        · exact absurd (first_isDeinit e) hop
        · exact e

/-! ## The end -/

/-- The loop of `gabs_timer_ctx_deinit` is through with slot `j`. -/
def Call.swept (j : Fin n) : Call n → Bool
  | .deinit (.test i) | .deinit (.close i) | .deinit (.reset i) => decide (j < i)
  | .deinit (.deinitLock i) => decide (j ≤ i)
  | _ => false

/-- **What `deinit` leaves.** -/
structure Finishing (s : Sys n m) : Prop where
  swept : ∀ th j, (s.calls th).swept j = true → s.state j = 0
  final : s.workState = .exit → (∃ th, (s.calls th).isDeinit = true) ∨
    s.worker = .exited ∧ (∀ th, s.calls th = .idle) ∧ ∀ i, s.state i = 0

theorem isDeinit_of_swept {c : Call n} {j : Fin n} (h : c.swept j = true) : c.afterJoin = true := by
  unfold Call.swept at h
  split at h <;> first | rfl | cases h

/-- The loop goes on to slot `k`, or `deinit` returns. -/
theorem Finishing.next {th : Thread m} {k : Nat} (hz : ∀ j : Fin n, j < k → s'.state j = 0)
    (hc : s'.calls = Function.update s.calls th (deinitCall n k)) (hid : ∀ th', th' ≠ th → s.calls th' = .idle)
    (hw : s'.worker = .exited) : Finishing s' := by
  have hid' : ∀ th', th' ≠ th → s'.calls th' = .idle := fun th' hn => by
    rw [hc, Function.update_of_ne hn]; exact hid th' hn
  have hth : s'.calls th = deinitCall n k := by rw [hc, Function.update_self]
  constructor
  · intro th' j h
    rcases eq_or_ne th' th with rfl | hn
    · rw [hth] at h
      unfold deinitCall at h
      split at h
      · exact hz j (by simpa [Call.swept, Fin.lt_def] using h)
      · cases h
    · rw [hid' th' hn] at h
      cases h
  · intro _
    rcases Nat.lt_or_ge k n with hk | hk
    · exact .inl ⟨th, by rw [hth, deinitCall, dif_pos hk]; rfl⟩
    · refine .inr ⟨hw, fun th' => ?_, fun i => hz i (by omega)⟩
      rcases eq_or_ne th' th with rfl | hn
      · rw [hth, deinitCall, dif_neg (by omega)]
      · exact hid' th' hn

/-- `deinit` moves on and is not done with a further slot. -/
theorem Finishing.move (hi : Finishing s) {th : Thread m} {c : Call n} (hc : s'.calls = Function.update s.calls th c)
    (hd : c.isDeinit = true) (hid : ∀ th', th' ≠ th → s.calls th' = .idle)
    (hz : ∀ j, c.swept j = true → (s.calls th).swept j = true ∨ s'.state j = 0)
    (hs : ∀ j, s.state j = 0 → s'.state j = 0) : Finishing s' := by
  refine ⟨fun th' j h => ?_, fun _ => .inl ⟨th, by rw [hc, Function.update_self]; exact hd⟩⟩
  rcases eq_or_ne th' th with rfl | hn
  · rw [hc, Function.update_self] at h
    rcases hz j h with h | h
    · exact hs j (hi.swept th' j h)
    · exact h
  · rw [hc, Function.update_of_ne hn, hid th' hn] at h
    cases h

/-- One step of a call. -/
theorem Finishing.call {th : Thread m} {r : Reply} (hi : Finishing s) (ho : Own s) (hh : Handles s)
    (h : Move s (.step th r) s') : Finishing s' := by
  have hf := h.frame_others
  by_cases hd : (s.calls th).isDeinit = true
  · have hid := fun th' hn => ho.deinit th th' hd hn
    cases h with
    | goto hm =>
      cases hm with
      | join h => exact hi.move rfl rfl hid nofun fun _ h => h
      | used h => exact hi.move rfl rfl hid (fun j e => .inl (by rw [h]; exact e)) fun _ h => h
      | initErr h | start h | settimeErr h | stopErr h | lockOwn h | unlockOwn h => rw [h] at hd; cases hd
    | done hm => cases hm with | busy h | active h => rw [h] at hd; cases hd
    | clear hm | settime hm =>
      generalize s.calls th = c at hm hd
      cases hm <;> cases hd
    | taken h | claim h | fill h | create h | createErr h | initLock h | errClose h | errReset h | publish h
    | setSched h | started h | stopped h | unStopped h | unLock h | unUnlock h | zombie h => rw [h] at hd; cases hd
    | deinitExit h | deinitTrigger h => exact hi.move rfl rfl hid nofun fun _ h => h
    | deinitEvent h => exact .next (k := 0) (by simp) rfl hid (ho.joined th (by rw [h]; rfl))
    | @deinitSkip _ _ i h hu =>
      have hj : (s.calls th).afterJoin = true := by rw [h]; rfl
      refine .next (k := i + 1) (fun j e => ?_) rfl hid (ho.joined th hj)
      rcases Nat.lt_or_eq_of_le (Nat.le_of_lt_succ e) with e | e
      · exact hi.swept th j (by rw [h]; exact decide_eq_true (Fin.lt_def.mpr e))
      · have e : j = i := Fin.ext e
        subst e
        refine hh.zero j (Bool.eq_false_iff.mpr fun ha => ?_)
        obtain ⟨th', hc⟩ := ho.owner j ha hu
        rcases eq_or_ne th' th with rfl | hn
        · rw [h] at hc; cases hc
        · rw [hid th' hn] at hc; cases hc
    | deinitClose h => exact hi.move rfl rfl hid (fun j e => .inl (by rw [h]; exact e)) fun _ h => h
    | @deinitReset _ _ i h =>
      refine hi.move rfl rfl hid (fun j e => ?_) fun j e => ?_
      · rcases lt_or_eq_of_le (of_decide_eq_true e) with e | e
        · exact .inl (by rw [h]; simpa [Call.swept] using e)
        · subst e; exact .inr (Function.update_self ..)
      · show Function.update s.state i 0 j = 0
        rw [Function.update_apply]
        split
        · rfl
        · exact e
    | @deinitMutex _ _ i h =>
      refine .next (k := i + 1) (fun j e => ?_) rfl hid (ho.joined th (by rw [h]; rfl))
      exact hi.swept th j (by rw [h]; exact decide_eq_true (Fin.le_def.mpr (Nat.le_of_lt_succ e)))
  · have hnd : ∀ th', (s'.calls th').isDeinit = true → False := by
      intro th' e
      rcases eq_or_ne th' th with rfl | hn
      · exact hd (h.isDeinit e)
      · rw [hf.2 th' hn] at e
        exact hf.1 (ho.deinit th' th e hn.symm)
    have hws : s'.workState = s.workState := by
      cases h with
      | deinitExit h => exact absurd (by rw [h]; rfl) hd
      | _ => rfl
    refine ⟨fun th' j e => (hnd th' (isDeinit_of_afterJoin (isDeinit_of_swept e))).elim, fun e => ?_⟩
    rcases hi.final (hws ▸ e) with ⟨th', h1⟩ | ⟨-, h1, -⟩
    · rcases eq_or_ne th' th with rfl | hn
      · exact absurd h1 hd
      · exact absurd (ho.deinit th' th h1 hn.symm) hf.1
    · exact absurd (h1 th) hf.1

/-- One step of the system. -/
theorem Finishing.step {a : Act n m} (hi : Finishing s) (ho : Own s) (hh : Handles s) (hp : Linear s a)
    (h : Move s a s') : Finishing s' := by
  cases a with
  | tick | expire => cases h; exact ⟨hi.swept, hi.final⟩
  | work r =>
    have hc := h.frame_calls
    have hws : s'.workState = s.workState := by cases h <;> rfl
    constructor
    · intro th j e
      rw [hc] at e
      exact absurd (ho.joined th (isDeinit_of_swept e)) h.ne_exited
    · intro e
      rw [hc]
      rcases hi.final (hws ▸ e) with h1 | h1
      · exact .inl h1
      · exact absurd h1.1 h.ne_exited
  | call th op =>
    obtain ⟨hn, hd⟩ := hp.open
    cases h with
    | enter _ _ he =>
      subst he
      constructor
      · intro th' j e
        have e := isDeinit_of_swept e
        rw [enter_calls, Function.update_apply] at e
        split at e
        · rw [first_afterJoin] at e; cases e
        · have := isDeinit_of_afterJoin e
          rw [hd th'] at this
          cases this
      · intro e
        rw [enter_workState, hn] at e
        cases e
  | step th r => exact hi.call ho hh h

/-- The words are zero at the end, in every run with exclusive uninstalls. -/
theorem finishing_of_reach (hr : (system n m).Reach Exclusive s) : Finishing s := by
  refine hr.invariant ?_ fun s a s' hr hi hp h =>
    hi.step (own_of_reach (hr.mono fun _ _ h => h.1)) (handles_of_reach hr) hp.1 (step_move h)
  rintro s ⟨fd, -, rfl⟩
  exact ⟨nofun, nofun⟩

theorem ok_of_reach {x : Sys n m × Life n} (hr : (lives n m).Reach (fun x a => Linear x.1 a) x) : x.2.Ok x.1 := by
  refine hr.record_invariant (I := fun s l => Life.Ok s l) ?_ fun s a s' l hr hi hp h => ?_
  · rintro s ⟨fd, -, rfl⟩
    refine ⟨fun _ => ?_, nofun, fun _ _ => rfl, nofun, nofun, nofun, List.nodup_nil, nofun, nofun, nofun,
      List.nodup_nil, nofun⟩
    exact ⟨fun _ => rfl, fun _ => rfl⟩
  · have hr := hr.fst (P := Linear)
    exact hi.step (own_of_reach hr) (descriptors_of_reach hr) (closing_of_reach hr) (step_move h)

/-! ## The lifecycle -/

/-- **The lifecycle of slots and timerfds**, as far as a history tells. -/
structure Lifecycle (s : Sys n m) (l : Life n) : Prop where
  /-- Two installed timers never share a slot. -/
  slots : (l.handles.map Prod.snd).Nodup
  /-- The timerfd of an installed timer is open. -/
  opened : ∀ k i, (k, i) ∈ l.handles → k ∉ l.closed ∧ l.obj (s.fd i) = k ∧ s.fds (s.fd i) ≠ none
  /-- No timerfd is closed twice, and `close` never meets a descriptor that is not an open timerfd. -/
  once : l.closed.Nodup ∧ none ∉ l.closed
  /-- After `deinit` the timerfd of every successful install has been closed, once, and every word is zero. -/
  final : s.Closed → (∀ k ∈ l.installed, l.closed.count k = 1) ∧ ∀ i, s.state i = 0

/-- **Slots and timerfds live as they should**, for any number of threads, in every run with linear handles and
exclusive uninstalls. -/
theorem slot_lifecycle {x : Sys n m × Life n} (hr : (lives n m).Reach (fun x a => Exclusive x.1 a) x) :
    Lifecycle x.1 x.2 := by
  obtain ⟨s, l⟩ := x
  have hs := hr.fst (P := Exclusive)
  have hok := ok_of_reach (hr.mono fun _ _ h => h.1)
  have hds := descriptors_of_reach (hs.mono fun _ _ h => h.1)
  refine ⟨hok.slots, fun k i h => ?_, ⟨hok.closed_once, hok.closed_some⟩, fun hc => ?_⟩
  · obtain ⟨h1, -, h3⟩ := hok.handle k i h
    refine ⟨fun hk => ?_, h3, (hds.opened i (.inl h1)).2⟩
    cases k with
    | none => exact hok.closed_some hk
    | some k => exact (hok.closed_lt k hk).2 _ h3
  · have hz : ∀ i, s.state i = 0 := by
      rcases (finishing_of_reach hs).final hc.1 with ⟨th, h⟩ | h
      · rw [hc.2 th] at h; cases h
      · exact h.2.2
    refine ⟨fun k hk => ?_, hz⟩
    rcases hok.installed k hk with h | ⟨i, h, -⟩
    · exact List.count_eq_one_of_mem hok.closed_once h
    · have := h.1
      rw [hz i] at this
      cases this

/-- Two installs, an uninstall whose slot the worker cleans, and `deinit`. -/
def lifeRun : List (Act 2 1) :=
  let c : Thread 1 := .client 0
  [.call c (.install none 0), .step c .ok, .step c .ok, .step c (.fd 4), .step c .ok, .step c .ok,
    .call c (.install none 0), .step c .ok, .step c .ok, .step c .ok, .step c (.fd 5), .step c .ok, .step c .ok,
    .call c (.uninstall 0), .step c .ok, .step c .ok, .step c .ok, .step c .ok, .step c .ok, .step c .ok,
    .work .ok, .work .ok, .work .ok, .work .ok, .work .ok, .work .ok, .work .ok, .work .ok, .work .ok, .work .ok,
    .work .ok, .work .ok, .call c .deinit, .step c .ok, .step c .ok, .work .ok, .step c .ok, .step c .ok, .step c .ok,
    .step c .ok, .step c .ok, .step c .ok, .step c .ok]

theorem slot_lifecycle_run : ∃ x : Sys 2 1 × Life 2, x.2.installed = [some 1, some 0] ∧ x.2.closed.count (some 0) = 1 ∧
    x.2.closed.count (some 1) = 1 ∧ ∀ i, x.1.state i = 0 := by
  obtain ⟨x, hr, hc, hi⟩ := Lts.Reach.run (M := lives 2 1) (P := fun x a => Exclusive x.1 a)
    (Q := fun x => x.1.Closed ∧ x.2.installed = [some 1, some 0]) (s := (ctxInit 2 1 3, .init))
    ⟨⟨3, by decide, rfl⟩, rfl⟩ lifeRun (by decide)
  obtain ⟨h1, h2⟩ := (slot_lifecycle hr).final hc
  exact ⟨x, hi, h1 _ (by simp [hi]), h1 _ (by simp [hi]), h2⟩

end Gabs.Timer.Posix
