import Gabs.Lib.Refine
import Gabs.Timer.Zephyr.Lists

/-!
# The Zephyr timer: the end of a context

- `Loop`, `loopStep`: `gabs_timer_ctx_deinit`, with the position of its loop;
- `Whole`, `whole`: the system with threads in that function;
- `Undisturbed`, `Closing`: nothing else is called on the timers that such a loop has to remove;
- `step_reseat`: a step does not depend on where the other threads are;
- `Whole.abs`: a loop seen as the uninstalls it amounts to;
- `Loops`: the invariant of the loops in progress, and that the steps of the others keep it.
-/

namespace Gabs.Timer.Zephyr

open Gabs.Lib

variable {n m : Nat} {κ χ : Type*}

/-! ## The program -/

/-- The statements of the loop; `advance` is what the head of the loop does between two rounds. -/
inductive Body
  | remove | cancel | wait | release | advance
  deriving DecidableEq

/-- Where a thread is in `gabs_timer_ctx_deinit`: its variables, and the next statement. -/
structure Loop (n : Nat) (χ : Type*) where
  ctx : χ
  info : Option (Fin n)
  nxt : Option (Fin n)
  p : Body
  deriving DecidableEq

/-- `SYS_DLIST_PEEK_NEXT_CONTAINER`. -/
def peekNext (l : List (Fin n)) : Option (Fin n) → Option (Fin n)
  | some t => (l.dropWhile (· ≠ t))[1]?
  | none => none

/-- The loop begins: `SYS_DLIST_PEEK_HEAD_CONTAINER`, and the node that follows. -/
def Loop.first (l : List (Fin n)) (ctx : χ) : Loop n χ := ⟨ctx, l.head?, peekNext l l.head?, .remove⟩

/-- One step of the loop of thread `th`. When there is no node left, the function returns 0. -/
def loopStep [DecidableEq χ] (K : Kernel κ) (s : Sys n m κ χ) (th : Thread m) (l : Loop n χ) :
    Option (Sys n m κ χ × Option (Loop n χ)) :=
  match l.info with
  | none => some (s.done th (.status 0), none)
  | some t => match l.p with
    | .remove => some (unlink s t, some { l with p := .cancel })
    | .cancel => some (s.setWork t (K.cancelDelayable (s.pool t).dwork), some { l with p := .wait })
    | .wait => if s.busy K t = .none then some (s, some { l with p := .release }) else none
    | .release => some (s.setTaken t false, some { l with p := .advance })
    | .advance => some (s, some ⟨l.ctx, l.nxt, peekNext (s.list l.ctx) l.nxt, .remove⟩)

/-- The pool and its users, with the loops that are in progress. -/
structure Whole (n m : Nat) (κ χ : Type*) where
  sys : Sys n m κ χ
  loops : Thread m → Option (Loop n χ)

/-- One action: one of the system, a call of `gabs_timer_ctx_deinit`, or a step of it. -/
inductive WholeAct (n m : Nat) (χ : Type*)
  | base (a : Act n m χ)
  | deinit (th : Thread m) (ctx : χ)
  | loop (th : Thread m)
  deriving DecidableEq

/-- The thread whose position an action depends on. -/
def Act.thread : Act n m χ → Option (Thread m)
  | .call th _ | .step th _ => some th
  | .expiry => some .workQueue
  | .elapse _ | .run _ => none

/-- **One step.** -/
def wholeStep [DecidableEq χ] (K : Kernel κ) (x : Whole n m κ χ) : WholeAct n m χ → Option (Whole n m κ χ)
  | .base a => if ∀ th ∈ a.thread, x.loops th = none then (step K x.sys a).map fun s => { x with sys := s } else none
  | .deinit th ctx =>
    if x.sys.calls th = .idle ∧ x.loops th = none ∧ (th = .workQueue → x.sys.inCallback = true) then
      some { x with loops := Function.update x.loops th (some (.first (x.sys.list ctx) ctx)) }
    else none
  | .loop th => (x.loops th).bind fun l =>
    (loopStep K x.sys th l).map fun y => ⟨y.1, Function.update x.loops th y.2⟩

/-- The system, from `init_timers` on. -/
def whole (K : Kernel κ) (n m : Nat) (χ : Type*) [DecidableEq χ] : Lts (Whole n m κ χ) (WholeAct n m χ) where
  init x := x = ⟨boot K n m χ, fun _ => none⟩
  step := wholeStep K

/-! ## The discipline -/

/-- The timer that is being removed. -/
def Loop.held (l : Loop n χ) : Option (Fin n) :=
  match l.p with
  | .advance => none
  | _ => l.info

/-- The context an install is called on. -/
def Call.installs : Call n χ → Option χ
  | .install ctx _ _ _ => some ctx
  | _ => none

/-- A call has nothing to do with the context of a loop, and with the timers that the loop has, or has still to get, in
its hands. -/
def Whole.Apart (x : Whole n m κ χ) (l : Loop n χ) (c : Call n χ) : Prop :=
  (∀ t ∈ c.timer, t ∉ x.sys.list l.ctx ∧ l.held ≠ some t) ∧ c.installs ≠ some l.ctx

/-- **A context that is being deinitialized is left alone.** No call is in progress on it or its timers when
`gabs_timer_ctx_deinit` is called, and none is made until it returns. -/
def Undisturbed (x : Whole n m κ χ) : WholeAct n m χ → Prop
  | .base (.call th op) => Valid x.sys (.call th op) ∧ ∀ th', ∀ l ∈ x.loops th', x.Apart l op.first
  | .base _ | .loop _ => True
  | .deinit _ ctx =>
    ∀ th', x.Apart (.first (x.sys.list ctx) ctx) (x.sys.calls th') ∧ ∀ l ∈ x.loops th', l.ctx ≠ ctx

/-- **It is left alone**, and `gabs_timer_ctx_deinit` is not called from the callback of one of the timers. -/
def Closing (x : Whole n m κ χ) : WholeAct n m χ → Prop
  | .base (.call th op) => Valid x.sys (.call th op) ∧ ∀ th', ∀ l ∈ x.loops th', x.Apart l op.first
  | .base _ | .loop _ => True
  | .deinit th ctx =>
    (∀ th', x.Apart (.first (x.sys.list ctx) ctx) (x.sys.calls th') ∧ ∀ l ∈ x.loops th', l.ctx ≠ ctx) ∧
      (th = .workQueue → ∀ t ∈ x.sys.list ctx, x.sys.firing ≠ some t)

instance [DecidableEq χ] (x : Whole n m κ χ) (l : Loop n χ) (c : Call n χ) : Decidable (x.Apart l c) :=
  inferInstanceAs (Decidable (_ ∧ _))

theorem Closing.undisturbed {x : Whole n m κ χ} {a : WholeAct n m χ} (h : Closing x a) : Undisturbed x a := by
  cases a with
  | base a =>
    cases a with
    | call => exact h
    | step | elapse | run | expiry => exact trivial
  | deinit => exact h.1
  | loop => exact trivial

instance [DecidableEq χ] (x : Whole n m κ χ) (a : WholeAct n m χ) : Decidable (Undisturbed x a) :=
  match a with
  | .base (.call _ _) => inferInstanceAs (Decidable (_ ∧ _))
  | .base (.step _ _) | .base (.elapse _) | .base (.run _) | .base .expiry | .loop _ => instDecidableTrue
  | .deinit _ _ => inferInstanceAs (Decidable (∀ _, _ ∧ _))

instance [DecidableEq χ] (x : Whole n m κ χ) (a : WholeAct n m χ) : Decidable (Closing x a) :=
  match a with
  | .base (.call _ _) => inferInstanceAs (Decidable (_ ∧ _))
  | .base (.step _ _) | .base (.elapse _) | .base (.run _) | .base .expiry | .loop _ => instDecidableTrue
  | .deinit _ _ => inferInstanceAs (Decidable (_ ∧ _))

/-! ## Threads in other positions -/

/-- The system with the threads elsewhere. -/
def Sys.reseat (s : Sys n m κ χ) (c : Thread m → Call n χ) (r : Thread m → Option (Ret n)) : Sys n m κ χ :=
  { s with calls := c, ret := r }

variable [DecidableEq χ] {K : Kernel κ} {s s' : Sys n m κ χ} {c : Thread m → Call n χ} {r : Thread m → Option (Ret n)}

theorem unlink_reseat (t : Fin n) : unlink (s.reseat c r) t = (unlink s t).reseat c r := by
  have hctx : ((s.reseat c r).pool t).ctx = (s.pool t).ctx := rfl
  rw [unlink, unlink, hctx]
  cases (s.pool t).ctx <;> rfl

/-- A step of a call does not depend on where the other threads are. -/
theorem callStep_reseat {th : Thread m} {idx : Option (Fin n)} (hc : c th = s.calls th)
    (h : callStep K s th idx = some s') : ∃ v r', s'.calls = Function.update s.calls th v ∧
      callStep K (s.reseat c r) th idx = some (s'.reseat (Function.update c th v) r') := by
  have hpos : (s.reseat c r).calls th = s.calls th := hc
  unfold callStep at h ⊢
  rw [hpos]
  cases hcall : s.calls th with
  | idle =>
    rw [hcall] at h
    cases h
  | install ctx cb arg p =>
    rw [hcall] at h
    dsimp only at h ⊢
    cases p with
    | reserve =>
      cases idx with
      | none => cases h; exact ⟨_, _, rfl, rfl⟩
      | some i =>
        simp only [installStep] at h ⊢
        split at h
        · cases h
        · rename_i ht
          have ht' : ¬(s.reseat c r).taken i = true := ht
          cases h
          rw [if_neg ht']
          exact ⟨_, _, rfl, rfl⟩
    | fill | append => cases h; exact ⟨_, _, rfl, rfl⟩
  | uninstall t p =>
    rw [hcall] at h
    dsimp only at h ⊢
    cases p with
    | remove =>
      cases h
      refine ⟨_, r, by rw [Sys.goto, unlink_calls], ?_⟩
      rw [uninstallStep, unlink_reseat]
      rfl
    | cancel | release => cases h; exact ⟨_, _, rfl, rfl⟩
    | wait =>
      simp only [uninstallStep] at h ⊢
      split at h
      · rename_i hb
        have hb' : (s.reseat c r).busy K t = .none := hb
        cases h
        rw [if_pos hb']
        exact ⟨_, _, rfl, rfl⟩
      · cases h
  | start t us =>
    rw [hcall] at h
    dsimp only at h ⊢
    by_cases hb : s.busy K t ≠ .none
    · have hb' : (s.reseat c r).busy K t ≠ .none := hb
      rw [if_pos hb] at h
      rw [if_pos hb']
      cases h
      exact ⟨_, _, rfl, rfl⟩
    · have hb' : ¬(s.reseat c r).busy K t ≠ .none := hb
      rw [if_neg hb] at h
      rw [if_neg hb']
      cases h
      exact ⟨_, _, rfl, rfl⟩
  | timerStart | stop | active =>
    rw [hcall] at h
    cases h
    exact ⟨_, _, rfl, rfl⟩

/-- **A step does not depend on where the other threads are.** -/
theorem step_reseat {a : Act n m χ} (hc : ∀ th ∈ a.thread, c th = s.calls th) (h : step K s a = some s') :
    ∃ r', step K (s.reseat c r) a =
      some (s'.reseat (fun th => if a.thread = some th then s'.calls th else c th) r') := by
  -- One thread goes on.
  have hone : ∀ {th : Thread m} {v : Call n χ}, s'.calls = Function.update s.calls th v →
      Function.update c th v = fun th' => if some th = some th' then s'.calls th' else c th' := fun {th v} hs => by
    funext th'
    rw [hs, Function.update_apply, Function.update_apply]
    rcases eq_or_ne th' th with rfl | hne
    · rw [if_pos rfl, if_pos rfl, if_pos rfl]
    · rw [if_neg hne, if_neg fun e => hne (Option.some.inj e).symm]
  cases a with
  | call th op =>
    simp only [step] at h ⊢
    split at h
    · rename_i hidle
      have hidle' : (s.reseat c r).calls th = .idle ∧ (th = .workQueue → (s.reseat c r).inCallback = true) :=
        ⟨(hc th rfl).trans hidle.1, hidle.2⟩
      cases h
      rw [if_pos hidle']
      refine ⟨r, congrArg some ?_⟩
      change s.reseat (Function.update c th op.first) r = s.reseat _ r
      rw [hone rfl]
      rfl
    · cases h
  | step th idx =>
    obtain ⟨v, r', hs, hstep⟩ := callStep_reseat (c := c) (r := r) (hc th rfl) h
    refine ⟨r', ?_⟩
    change callStep K (s.reseat c r) th idx = _
    rw [hstep, hone hs]
    rfl
  | elapse i =>
    simp only [step] at h ⊢
    split at h
    · rename_i hd
      have hd' : ((s.reseat c r).busy K i).delayed = true := hd
      cases h
      rw [if_pos hd']
      exact ⟨r, rfl⟩
    · cases h
  | run i =>
    simp only [step] at h ⊢
    split at h
    · rename_i hq
      have hq' : (s.reseat c r).expiry = none ∧ ((s.reseat c r).busy K i).queued = true := hq
      cases h
      rw [if_pos hq']
      exact ⟨r, rfl⟩
    · cases h
  | expiry =>
    obtain ⟨x, hx, h⟩ := Option.bind_eq_some_iff.mp h
    have hwq : c .workQueue = s.calls .workQueue := hc .workQueue rfl
    have hback : s'.calls = s.calls →
        (fun th => if Act.thread (Act.expiry : Act n m χ) = some th then s'.calls th else c th) = c := fun hs => by
      funext th
      split
      · rename_i heq
        obtain rfl : Thread.workQueue = th := Option.some.inj heq
        rw [hs, hwq]
      · rfl
    have hx' : (s.reseat c r).expiry = some x := hx
    change ∃ r', (s.reseat c r).expiry.bind (fun x => timerExpiryStep K (s.reseat c r) x.1 x.2) = _
    rw [hx', Option.bind_some]
    obtain ⟨i, p⟩ := x
    cases p with
    | callback =>
      simp only [timerExpiryStep] at h ⊢
      split at h
      · rename_i hidle
        have hidle' : (s.reseat c r).calls .workQueue = .idle := hwq.trans hidle
        cases h
        rw [if_pos hidle', hback rfl]
        exact ⟨r, rfl⟩
      · cases h
    | enter | test | leave | ended =>
      cases h
      rw [hback rfl]
      exact ⟨r, rfl⟩

/-! ## A loop as uninstalls -/

/-- The call that a round of the loop amounts to. -/
def Loop.call (l : Loop n χ) : Call n χ :=
  match l.info, l.p with
  | some t, .remove => .uninstall t .remove
  | some t, .cancel => .uninstall t .cancel
  | some t, .wait => .uninstall t .wait
  | some t, .release => .uninstall t .release
  | _, _ => .idle

/-- The system with uninstalls in place of the loops. -/
def Whole.abs (x : Whole n m κ χ) (r : Thread m → Option (Ret n)) : Sys n m κ χ :=
  x.sys.reseat (fun th => (x.loops th).elim (x.sys.calls th) Loop.call) r

omit [DecidableEq χ] in
theorem call_timer (l : Loop n χ) : l.call.timer = l.held := by
  rcases l with ⟨ctx, info, nxt, p⟩
  cases info <;> cases p <;> rfl

omit [DecidableEq χ] in
theorem call_removes (l : Loop n χ) : l.call.removes = l.held := by
  rcases l with ⟨ctx, info, nxt, p⟩
  cases info <;> cases p <;> rfl

omit [DecidableEq χ] in
theorem call_claims (l : Loop n χ) : l.call.claims = none := by
  rcases l with ⟨ctx, info, nxt, p⟩
  cases info <;> cases p <;> rfl

section Abs

omit [DecidableEq χ]

variable {x : Whole n m κ χ} {th : Thread m} {l : Loop n χ}

theorem abs_calls_of_loop (h : x.loops th = some l) : (x.abs r).calls th = l.call := by
  change (x.loops th).elim _ _ = _
  rw [h]
  rfl

theorem abs_calls_of_free (h : x.loops th = none) : (x.abs r).calls th = x.sys.calls th := by
  change (x.loops th).elim _ _ = _
  rw [h]
  rfl

/-- The calls there are, with those of the loops. -/
theorem abs_calls (th : Thread m) :
    (∃ l, x.loops th = some l ∧ (x.abs r).calls th = l.call) ∨
      x.loops th = none ∧ (x.abs r).calls th = x.sys.calls th := by
  cases h : x.loops th with
  | some l => exact .inl ⟨l, rfl, abs_calls_of_loop h⟩
  | none => exact .inr ⟨rfl, abs_calls_of_free h⟩

end Abs

/-! ## The invariant -/

/-- The variables of the loop and the list. -/
structure Loop.Shape (l : Loop n χ) (list : List (Fin n)) : Prop where
  head : l.p = .remove → l.info = list.head? ∧ l.nxt = list.tail.head?
  body : l.p ≠ .remove → l.info ≠ none ∧ l.nxt = list.head?

/-- **The loops in progress.** -/
structure Loops (x : Whole n m κ χ) : Prop where
  idle : ∀ th l, x.loops th = some l → x.sys.calls th = .idle
  shape : ∀ th l, x.loops th = some l → l.Shape (x.sys.list l.ctx)
  owner : ∀ th l t, x.loops th = some l → l.held = some t → (x.sys.pool t).ctx = some l.ctx
  apart : ∀ th l, x.loops th = some l → ∀ th', x.Apart l (x.sys.calls th')
  ctx : ∀ th th' l l', x.loops th = some l → x.loops th' = some l' → th ≠ th' → l.ctx ≠ l'.ctx
  callback : ∀ l, x.loops .workQueue = some l → x.sys.inCallback = true

/-- The work queue thread is in no loop over the timer whose callback it runs. -/
def Foreign (x : Whole n m κ χ) : Prop :=
  ∀ l, x.loops .workQueue = some l → ∀ t, t ∈ x.sys.list l.ctx ∨ l.held = some t → x.sys.firing ≠ some t

omit [DecidableEq χ] in
/-- The next of the first node is the second one. -/
theorem peekNext_head (list : List (Fin n)) : peekNext list list.head? = list.tail.head? := by
  cases list with
  | nil => rfl
  | cons t l => simp [peekNext, List.head?_eq_getElem?]

/-! ## Steps of the others -/

section Base

variable {x : Whole n m κ χ} {a : Act n m χ} {th : Thread m} {l : Loop n χ} {w : Newly n}

omit [DecidableEq χ] in
/-- A call goes on with the timer and the context it has. -/
theorem Next.same {c c' : Call n χ} (h : Next c c') :
    (∀ t ∈ c'.timer, t ∈ c.timer) ∧ ∀ ctx, c'.installs = some ctx → c.installs = some ctx := by
  cases h with
  | idle => exact ⟨by rintro t ⟨⟩, by rintro ctx ⟨⟩⟩
  | _ => exact ⟨fun _ ht => ht, fun _ hc => hc⟩

omit [DecidableEq χ] in
theorem apart_of_next {c c' : Call n χ} (h : Next c c') (ha : x.Apart l c) : x.Apart l c' :=
  ⟨fun t ht => ha.1 t (h.same.1 t ht), fun hc => ha.2 (h.same.2 _ hc)⟩

/-- The list of the context is left alone. -/
theorem Loops.list_kept (hi : Loops x) (hl : x.loops th = some l) (h : Move K x.sys a s') :
    s'.list l.ctx = x.sys.list l.ctx := by
  cases h with
  | @append th' _ ctx _ _ i hc =>
    have hne : l.ctx ≠ ctx := fun heq => (hi.apart th l hl th').2 (by rw [hc, heq]; rfl)
    exact Function.update_of_ne hne ..
  | @remove th' _ t hc =>
    have hout : t ∉ x.sys.list l.ctx := ((hi.apart th l hl th').1 t (by rw [hc]; rfl)).1
    change (unlink x.sys t).list l.ctx = _
    unfold unlink
    split
    · rw [Sys.setList_list, Function.update_apply]
      split
      · rename_i heq
        rw [← heq]
        exact List.erase_of_not_mem hout
      · rfl
    · rfl
  | _ => rfl

/-- The context of a timer is written by the install that has reserved its slot. -/
theorem Move.ctx_kept (h : Move K s a s') {t : Fin n} (hn : ∀ th, (s.calls th).claims ≠ some t) :
    (s'.pool t).ctx = (s.pool t).ctx := by
  have hslot : ∀ {k : Fin n} {v : κ}, s'.pool = Function.update s.pool k { s.pool k with dwork := v } →
      (s'.pool t).ctx = (s.pool t).ctx := fun hs => by
    rw [hs, Function.update_apply]
    split
    · rename_i heq
      rw [heq]
    · rfl
  cases h with
  | elapse | run | finish | cancelOwn | cancelSync | arm | stop => exact hslot rfl
  | enter | handle | goto | done | reserve | append | release => rfl
  | @fill th _ _ _ _ i hc =>
    have hne : t ≠ i := by
      rintro rfl
      exact hn th (by rw [hc]; rfl)
    rw [Sys.goto_pool, Sys.setInfo_pool, Function.update_of_ne hne]
  | remove =>
    change ((unlink s _).pool t).ctx = _
    rw [unlink_pool]

/-- While the work queue thread is in a loop, its handler waits. -/
theorem Move.expiry_waits (h : Move K s a s') (hcb : s.inCallback = true) (hn : Act.thread a ≠ some .workQueue) :
    s'.expiry = s.expiry := by
  cases h with
  | handle | finish => exact absurd rfl hn
  | run he => rw [Sys.inCallback, he] at hcb; cases hcb
  | remove => exact unlink_expiry ..
  | _ => rfl

/-- A step of the others leaves a thread in its loop. -/
theorem Move.idle_kept (h : Move K s a s') (hn : Act.thread a ≠ some th) (hidle : s.calls th = .idle) :
    s'.calls th = .idle := by
  rcases h.calls_of th with heq | ⟨op, rfl, -⟩ | ⟨idx, rfl, -⟩
  · rw [heq, hidle]
  · exact absurd rfl hn
  · exact absurd rfl hn

/-- **A step of the others.** -/
theorem Loops.base_step (hi : Loops x) (hcl : Clean K (x.abs r) w) (hv : Undisturbed x (.base a))
    (hfree : ∀ th ∈ a.thread, x.loops th = none) (h : Move K x.sys a s') : Loops { x with sys := s' } := by
  have hmoved : ∀ {th : Thread m} {l : Loop n χ}, x.loops th = some l → a.thread ≠ some th := fun hl heq => by
    rw [hfree _ heq] at hl
    cases hl
  have hlist : ∀ {th : Thread m} {l : Loop n χ}, x.loops th = some l → s'.list l.ctx = x.sys.list l.ctx :=
    fun hl => hi.list_kept hl h
  refine ⟨fun th l hl => h.idle_kept (hmoved hl) (hi.idle th l hl), fun th l hl => ?_, fun th l t hl ht => ?_,
    fun th l hl th' => ?_, hi.ctx, fun l hl =>
      (inCallback_of_expiry (h.expiry_waits (hi.callback l hl) (hmoved hl))).trans (hi.callback l hl)⟩
  · change l.Shape (s'.list l.ctx)
    rw [hlist hl]
    exact hi.shape th l hl
  · refine (h.ctx_kept fun th' hc => ?_).trans (hi.owner th l t hl ht)
    have hfree' : x.loops th' = none := by
      by_contra hne
      obtain ⟨l', hl'⟩ := Option.ne_none_iff_exists'.mp hne
      rw [hi.idle th' l' hl'] at hc
      cases hc
    have hheld : ((x.abs r).calls th).timer = some t := by
      rw [abs_calls_of_loop (x := x) hl, call_timer, ht]
    have hclaims : ((x.abs r).calls th').claims = some t := by rw [abs_calls_of_free hfree', hc]
    exact ((hcl.claims th' t hclaims).2 th).2 hheld
  · have hkept : ∀ c : Call n χ, x.Apart l c → Whole.Apart { x with sys := s' } l c := fun c ha =>
      ⟨fun t ht => by
        change t ∉ s'.list l.ctx ∧ l.held ≠ some t
        rw [hlist hl]
        exact ha.1 t ht, ha.2⟩
    apply hkept
    rcases h.calls_of th' with heq | ⟨op, rfl, -, heq⟩ | ⟨idx, rfl, hn⟩
    · rw [heq]
      exact hi.apart th l hl th'
    · rw [heq]
      exact hv.2 th l hl
    · exact apart_of_next hn (hi.apart th l hl th')

theorem Foreign.base_step (hown : Foreign x) (hi : Loops x) (hfree : ∀ th ∈ a.thread, x.loops th = none)
    (h : Move K x.sys a s') : Foreign { x with sys := s' } := by
  intro l hl t ht
  have hn : a.thread ≠ some .workQueue := fun heq => by
    rw [hfree _ heq] at hl
    cases hl
  have ht' : t ∈ s'.list l.ctx ∨ l.held = some t := ht
  rw [hi.list_kept hl h] at ht'
  change s'.firing ≠ some t
  rw [firing_of_expiry (h.expiry_waits (hi.callback l hl) hn)]
  exact hown l hl t ht'

/-- The same step with uninstalls in place of the loops. -/
theorem abs_base (hfree : ∀ th ∈ a.thread, x.loops th = none) (h : step K x.sys a = some s') :
    ∃ r', step K (x.abs r) a = some (Whole.abs { x with sys := s' } r') := by
  have hpos : ∀ th ∈ a.thread, (x.loops th).elim (x.sys.calls th) Loop.call = x.sys.calls th := fun th hth => by
    rw [hfree th hth]
    rfl
  obtain ⟨r', hstep⟩ := step_reseat (r := r) hpos h
  refine ⟨r', hstep.trans (congrArg some ?_)⟩
  change s'.reseat _ r' = s'.reseat _ r'
  congr 1
  funext th
  cases hl : x.loops th with
  | some l =>
    have hne : a.thread ≠ some th := fun heq => by rw [hfree th heq] at hl; cases hl
    rw [if_neg hne]
    rfl
  | none =>
    change (if a.thread = some th then s'.calls th else x.sys.calls th) = s'.calls th
    split
    · rfl
    · rename_i hne
      rcases (step_move h).calls_of th with heq | ⟨op, rfl, -⟩ | ⟨idx, rfl, -⟩
      · exact heq.symm
      · exact absurd rfl hne
      · exact absurd rfl hne

omit [DecidableEq χ] in
/-- A call that keeps to the discipline does so with uninstalls in place of the loops. -/
theorem valid_abs (hv : Undisturbed x (.base a)) : Valid (x.abs r) a := by
  cases a with
  | step | elapse | run | expiry => exact trivial
  | call th op =>
    obtain ⟨hv, hap⟩ := hv
    intro t ht
    obtain ⟨htaken, hothers⟩ := hv t ht
    refine ⟨htaken, fun th' => ?_⟩
    rcases abs_calls (r := r) (x := x) th' with ⟨l, hl, hc⟩ | ⟨-, hc⟩
    · have hheld : l.held ≠ some t := ((hap th' l hl).1 t (by rw [first_timer]; exact ht)).2
      rw [hc, call_claims, call_removes, call_timer]
      exact ⟨by rintro ⟨⟩, fun h => absurd h hheld, fun _ h => absurd h hheld⟩
    · rw [hc]
      exact hothers th'

end Base

end Gabs.Timer.Zephyr
