import Gabs.Lib.Lts
import Gabs.Lib.Sizes
import Mathlib.Data.Fintype.Basic
import Mathlib.Logic.Function.Basic
import Mathlib.Tactic.Simps.Basic

/-!
# The Zephyr timer: the program

`n` is the pool size `CONFIG_GABS_TIMER_MAX`, `m` the number of threads besides the one of the system work queue, `χ`
the type of contexts.

- `Kernel`: the delayable work items of the kernel, a parameter; `Kernel.Lawful`: what the program relies on;
- `Sys`: the pool with its bit array, the lists of the contexts, and where each thread is in the code;
- `installStep`, `uninstallStep`, `callStep`: the API; `timerExpiryStep`: the handler of all work items;
- `Act`, `step`, `system`: the interleavings of all of them with the timeouts of the kernel.

A step is one call into the kernel, or the accesses to plain fields up to the next one; the list of a context is
accessed under its mutex only, and such a section is one step.
-/

namespace Gabs.Timer.Zephyr

open Gabs.Lib

/-! ## The kernel -/

/-- The flags of `k_work_busy_get` and `k_work_delayable_busy_get`. -/
structure Busy where
  running : Bool
  canceling : Bool
  queued : Bool
  delayed : Bool
  flushing : Bool
  deriving DecidableEq

/-- No flag is set. -/
def Busy.none : Busy := ⟨false, false, false, false, false⟩

/-- `k_timeout_t`. -/
inductive Timeout
  | ticks (k : Nat)
  | usec (us : Nat)
  deriving DecidableEq

/-- The delayable work items. `elapse`, `run` and `finish` are what the kernel does itself: the delay elapses, the work
queue takes the item and calls the handler, and the handler has returned. -/
structure Kernel (κ : Type*) where
  initDelayable : κ
  busyGet : κ → Busy
  reschedule : κ → Timeout → κ
  cancelDelayable : κ → κ
  elapse : κ → κ
  run : κ → κ
  finish : κ → κ

/-- The flags after `k_work_cancel_delayable`: what is still busy after it has been dequeued is canceling. -/
def Busy.canceled (b : Busy) : Busy :=
  let rest := { b with queued := false, delayed := false }
  if rest = .none then rest else { rest with canceling := true }

/-- **What the kernel promises.** -/
structure Kernel.Lawful {κ : Type*} (K : Kernel κ) : Prop where
  initDelayable : K.busyGet K.initDelayable = .none
  reschedule : ∀ w d, ∃ queued delayed, K.busyGet (K.reschedule w d) = { K.busyGet w with queued, delayed }
  cancelDelayable : ∀ w, K.busyGet (K.cancelDelayable w) = (K.busyGet w).canceled
  elapse : ∀ w, (K.busyGet w).delayed = true →
    ∃ queued, K.busyGet (K.elapse w) = { K.busyGet w with queued, delayed := false }
  run : ∀ w, (K.busyGet w).queued = true →
    K.busyGet (K.run w) = { K.busyGet w with running := true, queued := false }
  finish : ∀ w, K.busyGet (K.finish w) = { K.busyGet w with running := false, canceling := false, flushing := false }

/-! ## States -/

/-- The threads: the one of the system work queue, and the others. -/
inductive Thread (m : Nat)
  | workQueue
  | client (k : Fin m)
  deriving DecidableEq

instance {m : Nat} {p : Thread m → Prop} [DecidablePred p] : Decidable (∀ th, p th) :=
  decidable_of_iff (p .workQueue ∧ ∀ k, p (.client k))
    ⟨fun h th => match th with | .workQueue => h.1 | .client k => h.2 k, fun h => ⟨h _, fun _ => h _⟩⟩

/-- `gabs_timer_install`, with `reserve` inlined. -/
inductive Install (n : Nat)
  | reserve
  | fill (i : Fin n)
  | append (i : Fin n)
  deriving DecidableEq

/-- `gabs_timer_uninstall`; `wait` is what `k_work_cancel_delayable_sync` does after the cancel, `release` the function
of that name. -/
inductive Uninstall
  | remove
  | cancel
  | wait
  | release
  deriving DecidableEq

/-- The API call a thread is in. `start` is the check of `gabs_timer_start`; the rest of it, and `gabs_timer_restart`,
is `timerStart`. -/
inductive Call (n : Nat) (χ : Type*)
  | idle
  | install (ctx : χ) (cb : Option Nat) (userData : Nat) (p : Install n)
  | uninstall (t : Fin n) (p : Uninstall)
  | start (t : Fin n) (us : Nat)
  | timerStart (t : Fin n) (us : Nat)
  | stop (t : Fin n)
  | active (t : Fin n)
  deriving DecidableEq

/-- What a call returns. -/
inductive Ret (n : Nat)
  | status (v : Int)
  | timer (t : Option (Fin n))
  | active (b : Bool)
  deriving DecidableEq

/-- Where the work queue thread is in `timer_expiry`; `ended` is after its last statement. -/
inductive Expiry
  | enter | test | callback | leave | ended
  deriving DecidableEq

/-- `struct timer_info`. -/
structure Info (κ χ : Type*) where
  dwork : κ
  callback : Option Nat
  userData : Nat
  ctx : Option χ

/-- The pool, `pool_bitarray`, the `list` of each context, the handler that runs, and the position of every thread.
`ret` is what the last call of a thread returned. -/
structure Sys (n m : Nat) (κ χ : Type*) where
  pool : Fin n → Info κ χ
  taken : Fin n → Bool
  list : χ → List (Fin n)
  expiry : Option (Fin n × Expiry)
  calls : Thread m → Call n χ
  ret : Thread m → Option (Ret n)

variable {n m : Nat} {κ χ : Type*}

namespace Sys

@[simps] def setWork (s : Sys n m κ χ) (i : Fin n) (w : κ) : Sys n m κ χ :=
  { s with pool := Function.update s.pool i { s.pool i with dwork := w } }

@[simps] def setInfo (s : Sys n m κ χ) (i : Fin n) (cb : Option Nat) (userData : Nat) (ctx : χ) : Sys n m κ χ :=
  { s with pool := Function.update s.pool i ⟨(s.pool i).dwork, cb, userData, some ctx⟩ }

@[simps] def setTaken (s : Sys n m κ χ) (i : Fin n) (b : Bool) : Sys n m κ χ :=
  { s with taken := Function.update s.taken i b }

@[simps] def setList [DecidableEq χ] (s : Sys n m κ χ) (ctx : χ) (l : List (Fin n)) : Sys n m κ χ :=
  { s with list := Function.update s.list ctx l }

/-- The handler goes on. -/
@[simps] def handle (s : Sys n m κ χ) (x : Option (Fin n × Expiry)) : Sys n m κ χ := { s with expiry := x }

/-- Thread `th` goes on at `c`. -/
@[simps] def goto (s : Sys n m κ χ) (th : Thread m) (c : Call n χ) : Sys n m κ χ :=
  { s with calls := Function.update s.calls th c }

/-- The call of thread `th` returns `v`. -/
@[simps] def done (s : Sys n m κ χ) (th : Thread m) (v : Ret n) : Sys n m κ χ :=
  { s with calls := Function.update s.calls th .idle, ret := Function.update s.ret th (some v) }

/-- The flags of the work item of timer `i`. -/
def busy (K : Kernel κ) (s : Sys n m κ χ) (i : Fin n) : Busy := K.busyGet (s.pool i).dwork

/-- The work queue thread's thread-local `firing`. It is null in every other thread. -/
def firing (s : Sys n m κ χ) : Option (Fin n) :=
  match s.expiry with
  | some (i, .test) | some (i, .callback) | some (i, .leave) => some i
  | _ => none

end Sys

/-! ## The API -/

/-- `EBUSY`. -/
def eBusy : Int := 16

/-- What `gabs_timer_active` makes of the flags: `K_WORK_CANCELING` and `K_WORK_FLUSHING` do not count. -/
def Busy.active (b : Busy) : Bool := decide ({ b with canceling := false, flushing := false } ≠ Busy.none)

/-- The `timeout` of `timer_start`. -/
def startTimeout (us : Nat) : Timeout := if us = 0 then .ticks 1 else .usec us

/-- One step of `gabs_timer_install`; `idx` is what `sys_bitarray_alloc` hands out, if it does not fail. -/
def installStep [DecidableEq χ] (s : Sys n m κ χ) (th : Thread m) (ctx : χ) (cb : Option Nat) (userData : Nat)
    (p : Install n) (idx : Option (Fin n)) : Option (Sys n m κ χ) :=
  match p with
  | .reserve => match idx with
    | some i =>
      if s.taken i then none else some ((s.setTaken i true).goto th (.install ctx cb userData (.fill i)))
    | none => some (s.done th (.timer none))
  | .fill i => some ((s.setInfo i cb userData ctx).goto th (.install ctx cb userData (.append i)))
  | .append i => some ((s.setList ctx (s.list ctx ++ [i])).done th (.timer (some i)))

/-- `info == firing` in thread `th`. -/
def Sys.inCallbackOf (s : Sys n m κ χ) (th : Thread m) (t : Fin n) : Bool :=
  decide (th = .workQueue) && decide (s.firing = some t)

/-- `sys_dlist_remove`. -/
def unlink [DecidableEq χ] (s : Sys n m κ χ) (t : Fin n) : Sys n m κ χ :=
  match (s.pool t).ctx with
  | some ctx => s.setList ctx ((s.list ctx).erase t)
  | none => s

section Unlink

variable [DecidableEq χ] (s : Sys n m κ χ) (t : Fin n)

@[simp] theorem unlink_pool : (unlink s t).pool = s.pool := by unfold unlink; split <;> rfl

@[simp] theorem unlink_taken : (unlink s t).taken = s.taken := by unfold unlink; split <;> rfl

@[simp] theorem unlink_expiry : (unlink s t).expiry = s.expiry := by unfold unlink; split <;> rfl

@[simp] theorem unlink_calls : (unlink s t).calls = s.calls := by unfold unlink; split <;> rfl

end Unlink

/-- One step of `gabs_timer_uninstall`. The synchronous cancel returns when the item is not busy. -/
def uninstallStep [DecidableEq χ] (K : Kernel κ) (s : Sys n m κ χ) (th : Thread m) (t : Fin n) (p : Uninstall) :
    Option (Sys n m κ χ) :=
  match p with
  | .remove => some ((unlink s t).goto th (.uninstall t .cancel))
  | .cancel =>
    let c := s.setWork t (K.cancelDelayable (s.pool t).dwork)
    some (c.goto th (.uninstall t (if s.inCallbackOf th t then .release else .wait)))
  | .wait => if s.busy K t = .none then some (s.goto th (.uninstall t .release)) else none
  | .release => some ((s.setTaken t false).done th (.status 0))

/-- One step of the API call thread `th` is in. -/
def callStep [DecidableEq χ] (K : Kernel κ) (s : Sys n m κ χ) (th : Thread m) (idx : Option (Fin n)) :
    Option (Sys n m κ χ) :=
  match s.calls th with
  | .idle => none
  | .install ctx cb userData p => installStep s th ctx cb userData p idx
  | .uninstall t p => uninstallStep K s th t p
  | .start t us => some (if s.busy K t ≠ .none then s.done th (.status (-eBusy)) else s.goto th (.timerStart t us))
  | .timerStart t us =>
    some ((s.setWork t (K.reschedule (s.pool t).dwork (startTimeout us))).done th (.status 0))
  | .stop t => some ((s.setWork t (K.cancelDelayable (s.pool t).dwork)).done th (.status 0))
  | .active t => some (s.done th (.active (s.busy K t).active))

/-! ## The handler -/

/-- One step of `timer_expiry` for timer `i`. The callback returns when no API call made from it is in progress; `ended`
is the return to the work queue. -/
def timerExpiryStep [DecidableEq χ] (K : Kernel κ) (s : Sys n m κ χ) (i : Fin n) : Expiry → Option (Sys n m κ χ)
  | .enter => some (s.handle (some (i, .test)))
  | .test =>
    let runs := (s.pool i).callback.isSome && !(s.busy K i).canceling
    some (s.handle (some (i, if runs then .callback else .leave)))
  | .callback => if s.calls .workQueue = .idle then some (s.handle (some (i, .leave))) else none
  | .leave => some (s.handle (some (i, .ended)))
  | .ended => some ((s.setWork i (K.finish (s.pool i).dwork)).handle none)

/-! ## The system -/

/-- The functions of the API. -/
inductive Op (n : Nat) (χ : Type*)
  | install (ctx : χ) (cb : Option Nat) (userData : Nat)
  | uninstall (t : Fin n)
  | start (t : Fin n) (us : Nat)
  | restart (t : Fin n) (us : Nat)
  | stop (t : Fin n)
  | active (t : Fin n)
  deriving DecidableEq

/-- Where a call is when the function is entered. -/
def Op.first : Op n χ → Call n χ
  | .install ctx cb userData => .install ctx cb userData .reserve
  | .uninstall t => .uninstall t .remove
  | .start t us => .start t us
  | .restart t us => .timerStart t us
  | .stop t => .stop t
  | .active t => .active t

/-- The work queue thread runs a callback. -/
def Sys.inCallback (s : Sys n m κ χ) : Bool :=
  match s.expiry with
  | some (_, .callback) => true
  | _ => false

/-- One action: a call, a step of a call, a delay elapses, the work queue takes an item, or a step of its handler. -/
inductive Act (n m : Nat) (χ : Type*)
  | call (th : Thread m) (op : Op n χ)
  | step (th : Thread m) (idx : Option (Fin n))
  | elapse (i : Fin n)
  | run (i : Fin n)
  | expiry
  deriving DecidableEq

/-- **One step of the system.** -/
def step [DecidableEq χ] (K : Kernel κ) (s : Sys n m κ χ) : Act n m χ → Option (Sys n m κ χ)
  | .call th op =>
    if s.calls th = .idle ∧ (th = .workQueue → s.inCallback = true) then some (s.goto th op.first) else none
  | .step th idx => callStep K s th idx
  | .elapse i => if (s.busy K i).delayed then some (s.setWork i (K.elapse (s.pool i).dwork)) else none
  | .run i =>
    if s.expiry = none ∧ (s.busy K i).queued = true then
      some ((s.setWork i (K.run (s.pool i).dwork)).handle (some (i, .enter)))
    else none
  | .expiry => s.expiry.bind fun x => timerExpiryStep K s x.1 x.2

/-- The pool after `init_timers`. -/
def boot (K : Kernel κ) (n m : Nat) (χ : Type*) : Sys n m κ χ where
  pool _ := ⟨K.initDelayable, none, 0, none⟩
  taken _ := false
  list _ := []
  expiry := none
  calls _ := .idle
  ret _ := none

/-- The pool and its users, from `init_timers` on. -/
def system (K : Kernel κ) (n m : Nat) (χ : Type*) [DecidableEq χ] : Lts (Sys n m κ χ) (Act n m χ) where
  init s := s = boot K n m χ
  step := step K

end Gabs.Timer.Zephyr
