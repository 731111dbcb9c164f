import Gabs.Timer.Manual.Sane

/-!
# The manual timer: every arming fires once

- `Ledger`: the armings of a run, which of them stand and which are superseded, the callbacks with the armings that they
  are run for, and the calls of `gabs_timer_manual_advance`;
- `Kept`: an active timer has a standing arming, and its expiry is that of the arming;
- `fires_exactly_once`: each callback is run for an arming, and no two for the same; an arming that is not superseded
  fires in the first call that ends at or after its expiry, with the clock at its expiry.
-/

namespace Gabs.Timer.Manual

open Gabs.Lib

variable {n : Nat}

/-! ## The ledger -/

/-- A start or restart that returned 0: the timer, the clock, the delay, and the first call of
`gabs_timer_manual_advance` that can serve it: the running one, or else the next. -/
structure Arming (n : Nat) where
  timer : Fin n
  clock : Nat
  delay : Nat
  call : Nat
  deriving DecidableEq

def Arming.expiry (a : Arming n) : Nat := a.clock + a.delay

/-- A callback: the arming it is run for, the call of `gabs_timer_manual_advance` that fires it (none if it is fired by
`gabs_timer_manual_fire`), and the clock. -/
structure Callback where
  arming : Option Nat
  call : Option Nat
  clock : Nat
  deriving DecidableEq

/-- The armings of a run in their order; for each timer the arming that stands, if any; the armings that were superseded
by a restart, stop, uninstall or manual fire of their timer; the callbacks; how many calls of
`gabs_timer_manual_advance` were made, and the clock at the return of each. -/
structure Ledger (n : Nat) where
  armings : List (Arming n)
  standing : Fin n → Option Nat
  superseded : List Nat
  callbacks : List Callback
  calls : Nat
  ends : Nat → Option Nat

namespace Ledger

def empty : Ledger n := ⟨[], fun _ => none, [], [], 0, fun _ => none⟩

/-- A callback of timer `t` is run. -/
def callback (g : Ledger n) (t : Fin n) (call : Option Nat) (clock : Nat) : Ledger n :=
  { g with callbacks := g.callbacks ++ [⟨g.standing t, call, clock⟩] }

/-- No arming of timer `t` stands any longer. -/
def settle (g : Ledger n) (t : Fin n) : Ledger n := { g with standing := Function.update g.standing t none }

/-- The standing arming of timer `t` is superseded. -/
def supersede (g : Ledger n) (t : Fin n) : Ledger n :=
  { g.settle t with superseded := g.superseded ++ (g.standing t).toList }

/-- Timer `t` is armed. -/
def arm (g : Ledger n) (a : Arming n) : Ledger n :=
  { g with armings := g.armings ++ [a], standing := Function.update g.standing a.timer (some g.armings.length) }

/-- A call of `gabs_timer_manual_advance` returns. -/
def finish (g : Ledger n) (clock : Nat) : Ledger n :=
  { g with ends := Function.update g.ends (g.calls - 1) (some clock) }

/-- The call of `gabs_timer_manual_advance` that serves the armings made in `s`. -/
def nextCall (g : Ledger n) (s : Sys n) : Nat := if (running s.frames).isSome then g.calls - 1 else g.calls

/-- The ledger after one more step. -/
def record (s : Sys n) (a : Act n) (s' : Sys n) (g : Ledger n) : Ledger n :=
  match a with
  | .call (.uninstall t) | .call (.stop t) => g.supersede t
  | .call (.start t us) | .call (.restart t us) =>
    if s'.ret = .status 0 then (g.supersede t).arm ⟨t, s.ctx.nowUs, us, g.nextCall s⟩ else g
  | .call (.fire t) =>
    if s'.frames = .callback t :: s.frames then (g.callback t none s'.ctx.nowUs).supersede t else g
  | .advance _ => { g with calls := g.calls + 1 }
  | .loop => match s'.frames with
    | .callback t :: fs =>
      if fs = s.frames then (g.callback t (some (g.calls - 1)) s'.ctx.nowUs).settle t else g.finish s'.ctx.nowUs
    | _ => g.finish s'.ctx.nowUs
  | _ => g

end Ledger

/-- The system with its ledger. -/
def ledgers (n : Nat) : Lts (Sys n × Ledger n) (Act n) := (system n).record .empty Ledger.record

/-! ## The invariant -/

/-- The calls of `gabs_timer_manual_advance` before call `c` that could have served `a` have ended before its expiry. -/
def Ledger.Early (g : Ledger n) (a : Arming n) (c : Nat) : Prop :=
  ∀ c', a.call ≤ c' → c' < c → ∃ e, g.ends c' = some e ∧ e < a.expiry

/-- The number of calls of `gabs_timer_manual_advance` that have not returned. -/
def Sys.pending (s : Sys n) : Nat := if (running s.frames).isSome then 1 else 0

/-- Arming `k` of timer `t` stands: the timer is active and expires with it; no callback was run for it, and no call
that could have served it has reached its expiry. -/
structure Stands (s : Sys n) (g : Ledger n) (t : Fin n) (k : Nat) (a : Arming n) : Prop where
  arming : g.armings[k]? = some a
  timer : a.timer = t
  active : (s.ctx.timers t).active = true
  expiry : (s.ctx.timers t).expiryUs = a.expiry
  kept : k ∉ g.superseded
  unserved : ∀ b ∈ g.callbacks, b.arming ≠ some k
  call : a.call + s.pending ≤ g.calls
  early : ∀ c e, a.call ≤ c → g.ends c = some e → e < a.expiry

/-- A callback that call `c` has fired for arming `k`: the arming was not superseded, the clock was at its expiry, and
no call before has reached it. -/
structure Served (g : Ledger n) (b : Callback) (c k : Nat) (a : Arming n) : Prop where
  arming : g.armings[k]? = some a
  run : b.arming = some k
  clock : b.clock = a.expiry
  kept : k ∉ g.superseded
  call : a.call ≤ c
  early : g.Early a c
  ended : ∀ e, g.ends c = some e → a.expiry ≤ e

/-- **What holds of the ledger.** -/
structure Kept (s : Sys n) (g : Ledger n) : Prop where
  pending : s.pending ≤ g.calls
  ended : ∀ c, (g.ends c).isSome = true ↔ c + s.pending < g.calls
  stands : ∀ t k, g.standing t = some k → ∃ a, Stands s g t k a
  active : ∀ t, (s.ctx.timers t).active = true → (g.standing t).isSome = true
  caused : ∀ b ∈ g.callbacks, ∃ k, b.arming = some k ∧ k < g.armings.length
  once : (g.callbacks.map Callback.arming).Nodup
  served : ∀ b ∈ g.callbacks, ∀ c, b.call = some c → ∃ k a, Served g b c k a
  past : ∀ k ∈ g.superseded, k < g.armings.length
  clock : ∀ b ∈ g.callbacks, b.clock ≤ s.ctx.nowUs
  settled : ∀ k a, g.armings[k]? = some a →
    g.standing a.timer = some k ∨ k ∈ g.superseded ∨ ∃ c, ⟨some k, some c, a.expiry⟩ ∈ g.callbacks

variable {s s' : Sys n} {g : Ledger n} {t : Fin n}

theorem Kept.init : Kept (boot n) .empty := by
  refine ⟨Nat.zero_le _, fun c => ?_, nofun, fun t h => ?_, nofun, .nil, nofun, nofun, nofun, ?_⟩
  · simp [Ledger.empty]
  · simp [boot, ctxInit, Slot.zero] at h
  · simp [Ledger.empty]

/-! ## The steps -/

/-- A step that arms and disarms nothing. -/
theorem Kept.keep (hi : Kept s g) (hp : s'.pending = s.pending) (hn : s.ctx.nowUs ≤ s'.ctx.nowUs)
    (ha : ∀ t, (s'.ctx.timers t).active = (s.ctx.timers t).active)
    (he : ∀ t, (s.ctx.timers t).active = true → (s'.ctx.timers t).expiryUs = (s.ctx.timers t).expiryUs) :
    Kept s' g where
  pending := hp ▸ hi.pending
  ended := hp ▸ hi.ended
  stands t k h := by
    obtain ⟨a, h1⟩ := hi.stands t k h
    exact ⟨a, { h1 with
      active := (ha t).trans h1.active, expiry := (he t h1.active).trans h1.expiry, call := hp ▸ h1.call }⟩
  active t h := hi.active t (ha t ▸ h)
  caused := hi.caused
  once := hi.once
  served := hi.served
  past := hi.past
  clock b hb := (hi.clock b hb).trans hn
  settled := hi.settled

/-- The arming of timer `t` is settled: those of `l` are superseded, and the callbacks `m` are run. -/
theorem Kept.close (hi : Kept s g) {l : List Nat} {m : List Callback} (hp : s'.pending = s.pending)
    (hn : s.ctx.nowUs ≤ s'.ctx.nowUs) (hoff : (s'.ctx.timers t).active = false)
    (ht : ∀ u, u ≠ t → s'.ctx.timers u = s.ctx.timers u) (hl : ∀ k ∈ l, g.standing t = some k)
    (hm : ∀ b ∈ m, b.arming = g.standing t ∧ (g.standing t).isSome = true ∧ b.clock ≤ s'.ctx.nowUs)
    (hone : (m.map Callback.arming).Nodup) (hs : ∀ b ∈ m, ∀ c, b.call = some c → l = [] ∧ ∃ k a, Served g b c k a)
    (hset : ∀ k a, g.standing t = some k → g.armings[k]? = some a →
      k ∈ l ∨ ∃ c, ⟨some k, some c, a.expiry⟩ ∈ m) :
    Kept s' { g.settle t with superseded := g.superseded ++ l, callbacks := g.callbacks ++ m } := by
  have hmine : ∀ k, g.standing t = some k → k < g.armings.length ∧ ∀ b ∈ g.callbacks, b.arming ≠ some k := by
    intro k hk
    obtain ⟨a, h⟩ := hi.stands t k hk
    exact ⟨(List.getElem?_eq_some_iff.mp h.arming).1, h.unserved⟩
  have hother : ∀ u k, u ≠ t → g.standing u = some k → g.standing t ≠ some k := by
    intro u k hu hk hk'
    obtain ⟨a, h⟩ := hi.stands u k hk
    obtain ⟨a', h'⟩ := hi.stands t k hk'
    have := h.arming.symm.trans h'.arming
    cases this
    exact hu (h.timer.symm.trans h'.timer)
  refine ⟨hp ▸ hi.pending, hp ▸ hi.ended, fun u k h => ?_, fun u h => ?_, fun b hb => ?_, ?_, fun b hb c hc => ?_,
    fun k hk => ?_, fun b hb => ?_, fun k a h => ?_⟩
  · rcases eq_or_ne u t with rfl | hu
    · simp [Ledger.settle] at h
    · have h : g.standing u = some k := by simpa [Ledger.settle, Function.update_of_ne hu] using h
      obtain ⟨a, h1⟩ := hi.stands u k h
      refine ⟨a, h1.arming, h1.timer, by rw [ht u hu]; exact h1.active, by rw [ht u hu]; exact h1.expiry, fun hk => ?_,
        fun b hb => ?_, hp ▸ h1.call, h1.early⟩
      · rcases List.mem_append.mp hk with hk | hk
        · exact h1.kept hk
        · exact hother u k hu h (hl k hk)
      · rcases List.mem_append.mp hb with hb | hb
        · exact h1.unserved b hb
        · rw [(hm b hb).1]; exact hother u k hu h
  · rcases eq_or_ne u t with rfl | hu
    · rw [hoff] at h; cases h
    · rw [ht u hu] at h
      simpa [Ledger.settle, Function.update_of_ne hu] using hi.active u h
  · rcases List.mem_append.mp hb with hb | hb
    · exact hi.caused b hb
    · obtain ⟨h1, h2, -⟩ := hm b hb
      obtain ⟨k, hk⟩ := Option.isSome_iff_exists.mp h2
      exact ⟨k, h1.trans hk, (hmine k hk).1⟩
  · rw [List.map_append]
    refine List.nodup_append.mpr ⟨hi.once, hone, fun x hx y hy he => ?_⟩
    obtain ⟨b, hb, rfl⟩ := List.mem_map.mp hx
    obtain ⟨b', hb', rfl⟩ := List.mem_map.mp hy
    obtain ⟨h1, h2, -⟩ := hm b' hb'
    obtain ⟨k, hk⟩ := Option.isSome_iff_exists.mp h2
    exact (hmine k hk).2 b hb (he.trans (h1.trans hk))
  · rcases List.mem_append.mp hb with hb | hb
    · obtain ⟨k, a, h1⟩ := hi.served b hb c hc
      refine ⟨k, a, { h1 with kept := fun hk => ?_ }⟩
      rcases List.mem_append.mp hk with hk | hk
      · exact h1.kept hk
      · exact (hmine k (hl k hk)).2 b hb h1.run
    · obtain ⟨rfl, k, a, h1⟩ := hs b hb c hc
      exact ⟨k, a, { h1 with kept := by simpa using h1.kept }⟩
  · rcases List.mem_append.mp hk with hk | hk
    · exact hi.past k hk
    · exact (hmine k (hl k hk)).1
  · rcases List.mem_append.mp hb with hb | hb
    · exact (hi.clock b hb).trans hn
    · exact (hm b hb).2.2
  · rcases hi.settled k a h with h1 | h1 | ⟨c, h1⟩
    · rcases eq_or_ne a.timer t with hat | hat
      · rcases hset k a (hat ▸ h1) h with h2 | ⟨c, h2⟩
        · exact .inr (.inl (List.mem_append_right _ h2))
        · exact .inr (.inr ⟨c, List.mem_append_right _ h2⟩)
      · exact .inl (by simpa [Ledger.settle, Function.update_of_ne hat] using h1)
    · exact .inr (.inl (List.mem_append_left _ h1))
    · exact .inr (.inr ⟨c, List.mem_append_left _ h1⟩)

/-- The standing arming of timer `t`, if any, is superseded. -/
theorem Kept.supersede (hi : Kept s g) (hp : s'.pending = s.pending) (hn : s'.ctx.nowUs = s.ctx.nowUs)
    (hoff : (s'.ctx.timers t).active = false) (ht : ∀ u, u ≠ t → s'.ctx.timers u = s.ctx.timers u) :
    Kept s' (g.supersede t) := by
  have := hi.close (l := (g.standing t).toList) (m := []) hp hn.ge hoff ht (fun k hk => by simpa using hk) nofun .nil
    nofun fun k a hk _ => .inl (by simpa using hk)
  simpa [Ledger.supersede, Ledger.settle] using this

/-- A timer of which no arming stands is armed. -/
theorem Kept.arm (hi : Kept s g) {a : Arming n} (hp : s'.pending = s.pending) (hn : s'.ctx.nowUs = s.ctx.nowUs)
    (hnone : g.standing a.timer = none) (hact : (s'.ctx.timers a.timer).active = true)
    (hexp : (s'.ctx.timers a.timer).expiryUs = a.expiry)
    (ht : ∀ u, u ≠ a.timer → s'.ctx.timers u = s.ctx.timers u) (hc : a.call + s.pending = g.calls) :
    Kept s' (g.arm a) := by
  have hold : ∀ {k : Nat} {b : Arming n}, g.armings[k]? = some b → (g.arm a).armings[k]? = some b := fun {k b} h => by
    have := (List.getElem?_eq_some_iff.mp h).1
    rw [Ledger.arm, List.getElem?_append_left this, h]
  have hlen : (g.arm a).armings.length = g.armings.length + 1 := by simp [Ledger.arm]
  refine ⟨hp ▸ hi.pending, hp ▸ hi.ended, fun u k h => ?_, fun u h => ?_, fun b hb => ?_, hi.once, fun b hb c hc => ?_,
    fun k hk => ?_, fun b hb => hn ▸ hi.clock b hb, fun k b h => ?_⟩
  · rcases eq_or_ne u a.timer with rfl | hu
    · have hk : g.armings.length = k := by simpa [Ledger.arm] using h
      subst hk
      refine ⟨a, by simp [Ledger.arm], rfl, hact, hexp, fun hk => absurd (hi.past _ hk) (lt_irrefl _),
        fun b hb he => ?_, (hp ▸ hc).le, fun c e hac hce => ?_⟩
      · obtain ⟨k, h1, h2⟩ := hi.caused b hb
        cases h1.symm.trans he
        exact absurd h2 (lt_irrefl _)
      · have := (hi.ended c).mp (by rw [show g.ends c = some e from hce]; rfl)
        omega
    · obtain ⟨b, h1⟩ := hi.stands u k (by simpa [Ledger.arm, Function.update_of_ne hu] using h)
      exact ⟨b, hold h1.arming, h1.timer, by rw [ht u hu]; exact h1.active, by rw [ht u hu]; exact h1.expiry, h1.kept,
        h1.unserved, hp ▸ h1.call, h1.early⟩
  · rcases eq_or_ne u a.timer with rfl | hu
    · simp [Ledger.arm]
    · rw [ht u hu] at h
      simpa [Ledger.arm, Function.update_of_ne hu] using hi.active u h
  · obtain ⟨k, h1, h2⟩ := hi.caused b hb
    exact ⟨k, h1, by omega⟩
  · obtain ⟨k, b', h1⟩ := hi.served b hb c hc
    exact ⟨k, b', { h1 with arming := hold h1.arming }⟩
  · have := hi.past k hk
    omega
  · rcases Nat.lt_or_ge k g.armings.length with hk | hk
    · rw [Ledger.arm, List.getElem?_append_left hk] at h
      rcases hi.settled k b h with h1 | h1 | h1
      · refine .inl ?_
        rcases eq_or_ne b.timer a.timer with he | hu
        · rw [he, hnone] at h1; cases h1
        · simpa [Ledger.arm, Function.update_of_ne hu] using h1
      · exact .inr (.inl h1)
      · exact .inr (.inr h1)
    · have hk' : k = g.armings.length := by
        have := (List.getElem?_eq_some_iff.mp h).1
        omega
      subst hk'
      have hb : a = b := by simpa [Ledger.arm] using h
      subst hb
      exact .inl (by simp [Ledger.arm])

/-- A call of `gabs_timer_manual_advance` begins. -/
theorem Kept.enter (hi : Kept s g) (hp : s.pending = 0) (hp' : s'.pending = 1) (hctx : s'.ctx = s.ctx) :
    Kept s' { g with calls := g.calls + 1 } := by
  refine ⟨by simp [hp'], fun c => ?_, fun t k h => ?_, fun t h => hi.active t (hctx ▸ h), hi.caused, hi.once,
    fun b hb c hc => ?_, hi.past, fun b hb => hctx ▸ hi.clock b hb, hi.settled⟩
  · have := hi.ended c
    simp only [hp, hp'] at this ⊢
    exact this.trans (by omega)
  · obtain ⟨a, h1⟩ := hi.stands t k h
    have := h1.call
    exact ⟨a, h1.arming, h1.timer, hctx ▸ h1.active, hctx ▸ h1.expiry, h1.kept, h1.unserved, by
      simp only [hp, hp'] at this ⊢; omega, h1.early⟩
  · obtain ⟨k, a, h1⟩ := hi.served b hb c hc
    exact ⟨k, a, { h1 with }⟩

/-- A call of `gabs_timer_manual_advance` returns; the active timers expire later. -/
theorem Kept.finish (hi : Kept s g) {e : Nat} (hp : s.pending = 1) (hp' : s'.pending = 0)
    (hctx : s'.ctx = s.ctx.setNow e)
    (hn : s.ctx.nowUs ≤ e) (hlate : ∀ t, (s.ctx.timers t).active = true → e < (s.ctx.timers t).expiryUs) :
    Kept s' (g.finish s'.ctx.nowUs) := by
  have hpos := hi.pending
  have hnow : s'.ctx.nowUs = e := by rw [hctx]; rfl
  have hsame : s'.ctx.timers = s.ctx.timers := by rw [hctx]; rfl
  have hends : ∀ c, (g.finish s'.ctx.nowUs).ends c = if c = g.calls - 1 then some e else g.ends c := fun c => by
    simp only [Ledger.finish, Function.update_apply, hnow]
  have hopen : g.ends (g.calls - 1) = none := by
    by_contra h
    have := (hi.ended _).mp (Option.isSome_iff_ne_none.mpr h)
    omega
  refine ⟨by simp [hp'], fun c => ?_, fun t k h => ?_, fun t h => hi.active t (hsame ▸ h), hi.caused, hi.once,
    fun b hb c hc => ?_, hi.past, fun b hb => ?_, hi.settled⟩
  · have := hi.ended c
    rw [hends, hp']
    rw [hp] at this
    split
    · simp only [Option.isSome_some, true_iff, Ledger.finish]; omega
    · rw [this]; simp only [Ledger.finish]; omega
  · obtain ⟨a, h1⟩ := hi.stands t k h
    have hcall := h1.call
    refine ⟨a, h1.arming, h1.timer, hsame ▸ h1.active, hsame ▸ h1.expiry, h1.kept, h1.unserved, ?_,
      fun c e' hac hce => ?_⟩
    · rw [hp']; simp only [Ledger.finish]; omega
    · rw [hends] at hce
      split at hce
      · cases hce
        exact h1.expiry ▸ hlate t h1.active
      · exact h1.early c e' hac hce
  · obtain ⟨k, a, h1⟩ := hi.served b hb c hc
    refine ⟨k, a, { h1 with early := fun c' h2 h3 => ?_, ended := fun e' h2 => ?_ }⟩
    · obtain ⟨e', h4, h5⟩ := h1.early c' h2 h3
      refine ⟨e', ?_, h5⟩
      rw [hends, if_neg (by rintro rfl; rw [hopen] at h4; cases h4), h4]
    · rw [hends] at h2
      split at h2
      · cases h2
        exact h1.clock ▸ (hi.clock b hb).trans hn
      · exact h1.ended e' h2
  · rw [hnow]
    exact (hi.clock b hb).trans hn

theorem record_of_arms {op : Op n} {us : Nat} (h : op.arms s.ctx = some (t, us)) (hv : s'.ret = .status 0) :
    g.record s (.call op) s' = (g.supersede t).arm ⟨t, s.ctx.nowUs, us, g.nextCall s⟩ := by
  unfold Op.arms at h
  split at h
  · split at h <;> cases h
    simp only [Ledger.record, hv, if_true]
  · cases h
    simp only [Ledger.record, hv, if_true]
  · cases h

/-- A timer is armed. -/
theorem Kept.armed (hi : Kept s g) {op : Op n} {us : Nat} (hu : Usable s (.call op))
    (ha : op.arms s.ctx = some (t, us)) :
    Kept { s with ctx := s.ctx.arm t us, ret := .status 0 }
    ((g.supersede t).arm ⟨t, s.ctx.nowUs, us, g.nextCall s⟩) := by
  have hoff : Kept { s with ctx := s.ctx.disarm t } (g.supersede t) :=
    hi.supersede rfl rfl disarm_active fun u hn => disarm_timers_of_ne hn
  refine hoff.arm rfl rfl (by simp [Ledger.supersede, Ledger.settle]) ?_ ?_ (fun u hn => ?_) ?_
  · rw [arm_timers_self]
  · rw [arm_timers_self, wrap_of_lt (hu.2 _ ha).1]; rfl
  · rw [disarm_timers_of_ne hn]; exact arm_timers_of_ne hn
  · have := hi.pending
    simp only [Ledger.nextCall, Sys.pending, Ledger.supersede, Ledger.settle] at this ⊢
    split <;> simp_all

/-- `gabs_timer_manual_fire` of an active timer. -/
theorem Kept.fire (hi : Kept s g) (ha : (s.ctx.timers t).active = true) :
    Kept (s.fired t) ((g.callback t none s.ctx.nowUs).supersede t) := by
  have : Kept (s.fired t) _ := hi.close (t := t) (l := (g.standing t).toList)
    (m := [⟨g.standing t, none, s.ctx.nowUs⟩]) rfl le_rfl disarm_active (fun u hn => disarm_timers_of_ne hn)
    (fun k hk => by simpa using hk)
    (by simpa [Sys.fired] using hi.active t ha) (by simp) (by simp) fun k a hk _ => .inl (by simpa using hk)
  simpa [Ledger.supersede, Ledger.settle, Ledger.callback] using this

/-- The next timer fires. -/
theorem Kept.alarm (hi : Kept s g) (hsane : Sane s) {e k : Nat} {fs : List (Frame n)}
    (hf : s.frames = .advance e k :: fs) (hne : nextExpired s.ctx e = some t) :
    Kept ({ s with ctx := s.ctx.setNow (s.ctx.timers t).expiryUs }.fired t)
      ((g.callback t (some (g.calls - 1)) (s.ctx.timers t).expiryUs).settle t) := by
  have hp : s.pending = 1 := by rw [Sys.pending, hf]; rfl
  have hat := (due_iff.mp (nextExpired_some hne).1).2.1
  obtain ⟨k, hk⟩ := Option.isSome_iff_exists.mp (hi.active t hat)
  obtain ⟨a, ha⟩ := hi.stands t k hk
  have hcall := ha.call
  have hserved : Served g ⟨some k, some (g.calls - 1), (s.ctx.timers t).expiryUs⟩ (g.calls - 1) k a := by
    refine ⟨ha.arming, rfl, ha.expiry, ha.kept, by omega, fun c' h1 h2 => ?_, fun e h => ?_⟩
    · obtain ⟨e, he⟩ := Option.isSome_iff_exists.mp ((hi.ended c').mpr (by omega))
      exact ⟨e, he, ha.early c' e h1 he⟩
    · have := (hi.ended (g.calls - 1)).mp (by rw [h]; rfl)
      omega
  have : Kept ({ s with ctx := s.ctx.setNow (s.ctx.timers t).expiryUs }.fired t) _ := hi.close (t := t) (l := [])
    (m := [⟨some k, some (g.calls - 1), (s.ctx.timers t).expiryUs⟩]) rfl (hsane.ahead t hat) disarm_active
    (fun u hn => disarm_timers_of_ne hn) nofun (by simp [hk, Sys.fired]) (by simp)
    (fun b hb c hc => by
      rw [List.mem_singleton.mp hb] at hc ⊢
      cases hc
      exact ⟨rfl, k, a, hserved⟩)
    fun k' a' hk' ha' => .inr ⟨g.calls - 1, by
      cases hk.symm.trans hk'
      cases ha.arming.symm.trans ha'
      rw [ha.expiry]
      exact List.mem_singleton_self _⟩
  simpa [Ledger.settle, Ledger.callback, hk] using this

/-- One step. -/
theorem Kept.step {a : Act n} (hi : Kept s g) (hsane : Sane s) (hu : Usable s a) (h : Move s a s') :
    Kept s' (g.record s a s') := by
  cases h with
  | @install cb arg i hc hnu =>
    have hoff : (s.ctx.timers i).active = false := by
      by_contra h
      rw [hsane.used i (by simpa using h)] at hnu
      cases hnu
    refine hi.keep rfl le_rfl (fun u => ?_) fun u ha => ?_
    · rcases eq_or_ne u i with rfl | hn
      · rw [hoff, put_timers_self]; rfl
      · rw [put_timers_of_ne hn]
    · rw [put_timers_of_ne (by rintro rfl; rw [hoff] at ha; cases ha)]
  | @quiet op v hc hq =>
    have hg : g.record s (.call op) { s with ret := v } = g := by
      cases op with
      | uninstall | stop | restart => exact absurd hq id
      | start t us => simp only [Ledger.record, hq.2]; rfl
      | fire t => exact if_neg (by simp)
      | install | active | now => rfl
    rw [hg]
    exact hi.keep rfl le_rfl (fun _ => rfl) fun _ _ => rfl
  | uninstall hc => exact hi.supersede rfl rfl (by rw [put_timers_self]) fun u hn => put_timers_of_ne hn
  | stop hc => exact hi.supersede rfl rfl disarm_active fun u hn => disarm_timers_of_ne hn
  | @arm op t us hc ha =>
    rw [record_of_arms ha rfl]
    exact hi.armed hu ha
  | @fire t hc hat =>
    have hg : g.record s (.call (.fire t)) (s.fired t) = (g.callback t none s.ctx.nowUs).supersede t := if_pos rfl
    rw [hg]
    exact hi.fire hat
  | @advance us hc => exact hi.enter (by rw [Sys.pending, hu.1]; rfl) rfl rfl
  | @retLoop t e k fs hf | @retFire t fs hf hno =>
    exact hi.keep (by rw [Sys.pending, Sys.pending, hf]; rfl) le_rfl (fun _ => rfl) fun _ _ => rfl
  | @alarm t e k fs hf hne =>
    have hg : g.record s .loop ({ s with ctx := s.ctx.setNow (s.ctx.timers t).expiryUs }.fired t) =
        (g.callback t (some (g.calls - 1)) (s.ctx.timers t).expiryUs).settle t := if_pos rfl
    rw [hg]
    exact hi.alarm hsane hf hne
  | @done e k fs hf hne =>
    have hfs : fs = [] := by have := hsane.flat; rwa [hf] at this
    subst hfs
    exact hi.finish (by rw [Sys.pending, hf]; rfl) rfl rfl (hsane.inTime e k (by rw [hf]; rfl)) fun t ha =>
      hsane.lt_of_not_due (nextExpired_none hne t) ha

theorem kept_of_reach {x : Sys n × Ledger n} (hr : (ledgers n).Reach (fun x a => Usable x.1 a) x) : Kept x.1 x.2 := by
  refine hr.record_invariant (I := fun s g => Kept s g) ?_ fun s a s' g hr hi hu h => ?_
  · rintro s rfl; exact .init
  · exact hi.step (sane_of_reach hr.fst) hu (step_move h)

/-! ## Every arming fires once -/

/-- In a list without two elements of the same image there is one element of each. -/
theorem filter_eq_singleton {α β : Type} [DecidableEq β] {f : α → β} {b : α} {y : β} (hy : f b = y) :
    ∀ {l : List α}, (l.map f).Nodup → b ∈ l → l.filter (fun x => f x = y) = [b] := by
  intro l
  induction l with
  | nil => intro _ hb; cases hb
  | cons x l ih =>
    intro hn hb
    obtain ⟨hx, hn⟩ := List.nodup_cons.mp hn
    rcases List.mem_cons.mp hb with rfl | hb
    · rw [List.filter_cons_of_pos (by simpa using hy), List.filter_eq_nil_iff.mpr fun z hz => ?_]
      rw [decide_eq_true_eq]
      intro hzy
      exact hx (List.mem_map.mpr ⟨z, hz, hzy.trans hy.symm⟩)
    · have hxy : f x ≠ y := fun he => hx (List.mem_map.mpr ⟨b, hb, hy.trans he.symm⟩)
      rw [List.filter_cons_of_neg (by simpa using hxy)]
      exact ih hn hb

/-- **Every arming fires once.** Each callback is run for an arming, and no two callbacks for the same. A callback that
a call of `gabs_timer_manual_advance` fires is that of an arming which is not superseded, with the clock at its expiry.
When the first call that can serve an arming and ends at or after its expiry returns, the arming has fired in this call,
unless it is superseded. -/
theorem fires_exactly_once {x : Sys n × Ledger n} (hr : (ledgers n).Reach (fun x a => Usable x.1 a) x) :
    (∀ b ∈ x.2.callbacks, ∃ k, b.arming = some k ∧ k < x.2.armings.length) ∧
    (x.2.callbacks.map Callback.arming).Nodup ∧
    (∀ b ∈ x.2.callbacks, ∀ c, b.call = some c → ∃ k a, b.arming = some k ∧ x.2.armings[k]? = some a ∧
      k ∉ x.2.superseded ∧ b.clock = a.expiry ∧ a.call ≤ c ∧ x.2.Early a c) ∧
    ∀ k a c e, x.2.armings[k]? = some a → k ∉ x.2.superseded → a.call ≤ c → x.2.ends c = some e → a.expiry ≤ e →
      x.2.Early a c → x.2.callbacks.filter (fun b => b.arming = some k) = [⟨some k, some c, a.expiry⟩] := by
  have hi := kept_of_reach hr
  refine ⟨hi.caused, hi.once, fun b hb c hc => ?_, fun k a c e ha hk hac hce hle hearly => ?_⟩
  · obtain ⟨k, a, h⟩ := hi.served b hb c hc
    exact ⟨k, a, h.run, h.arming, h.kept, h.clock, h.call, h.early⟩
  · obtain ⟨c', hmem⟩ : ∃ c', ⟨some k, some c', a.expiry⟩ ∈ x.2.callbacks := by
      rcases hi.settled k a ha with h | h | h
      · obtain ⟨a', h'⟩ := hi.stands _ k h
        cases ha.symm.trans h'.arming
        exact absurd (h'.early c e hac hce) (not_lt.mpr hle)
      · exact absurd h hk
      · exact h
    obtain ⟨k', a', h⟩ := hi.served _ hmem c' rfl
    cases h.run
    cases ha.symm.trans h.arming
    have hcc : c' = c := by
      rcases lt_trichotomy c' c with hlt | heq | hlt
      · obtain ⟨e', h1, h2⟩ := hearly c' h.call hlt
        exact absurd h2 (not_lt.mpr (h.ended e' h1))
      · exact heq
      · obtain ⟨e', h1, h2⟩ := h.early c hac hlt
        cases h1.symm.trans hce
        exact absurd h2 (not_lt.mpr hle)
    subst hcc
    exact filter_eq_singleton rfl hi.once hmem

/-- A timer is started and superseded by a restart, which fires in the second call; its callback restarts it. -/
def supersededOnce : List (Act 1) :=
  [.call (.install (some 1) 0), .call (.start 0 3), .advance 2, .loop, .call (.restart 0 3), .advance 5, .loop,
    .call (.start 0 1), .ret, .loop, .ret, .loop]

theorem fires_exactly_once_run : ∃ x : Sys 1 × Ledger 1, (ledgers 1).Reach (fun x a => Usable x.1 a) x ∧
    x.2.superseded = [0] ∧ x.2.callbacks.filter (fun b => b.arming = some 1) = [⟨some 1, some 1, 5⟩] ∧
    x.2.callbacks.filter (fun b => b.arming = some 2) = [⟨some 2, some 1, 6⟩] := by
  obtain ⟨x, hr, h1, h2, h3, h4⟩ := Lts.Reach.run (M := ledgers 1) (P := fun x a => Usable x.1 a)
    (s := (boot 1, .empty)) (Q := fun x => x.2.superseded = [0] ∧ x.2.armings[1]? = some ⟨0, 2, 3, 1⟩ ∧
      x.2.armings[2]? = some ⟨0, 5, 1, 1⟩ ∧ x.2.ends 1 = some 7) ⟨rfl, rfl⟩ supersededOnce (by decide)
  obtain ⟨-, -, -, h⟩ := fires_exactly_once hr
  refine ⟨x, hr, h1, h 1 _ 1 7 h2 (by simp [h1]) le_rfl h4 (by decide) ?_,
    h 2 _ 1 7 h3 (by simp [h1]) le_rfl h4 (by decide) ?_⟩
  · intro c' h1 h2; exact absurd (h1.trans_lt h2) (lt_irrefl _)
  · intro c' h1 h2; exact absurd (h1.trans_lt h2) (lt_irrefl _)

end Gabs.Timer.Manual
