import Gabs.Lib.Lts
import Gabs.Lib.Sizes
import Gabs.Timer.Posix.AtomicMask
import Mathlib.Data.Fintype.Basic
import Mathlib.Tactic.Simps.Basic

/-!
# The POSIX timer: the program

`n` is the pool size `GABS_CONFIG_TIMER_POSIX_MAX`, `m` the number of client threads.

- `Sys`: the array of `struct gabs_timer_posix`, the context, the kernel objects it owns, and for each thread where
  it is in the code;
- `Call` and the program counters below it: the atomic steps of the API functions. An action is one step: one mask
  operation, one system call, one lock operation, or one access to the plain fields of a slot;
- `preparePfdsStep`, `timerFromFdStep`, `timerAlarmStep`, `servicePfdsStep`, `workerStep`: the worker thread;
- `timerAddStep`, `timerRestartStep`, `timerStopStep`, `timerUninstallStep`, `ctxDeinitStep`, `callStep`: the API;
- `Act`, `step`, `system`: the interleavings of all of them with the kernel's clock and timers.

The array `pfds` of the worker is a list: a store past the end of the array is one past `n` entries here.
-/

namespace Gabs.Timer.Posix

open Gabs.Lib

/-! ## Kernel objects -/

/-- The threads: the one of the context, and the clients'. -/
inductive Thread (m : Nat)
  | worker
  | client (k : Fin m)
  deriving DecidableEq

instance {m : Nat} {p : Thread m → Prop} [DecidablePred p] : Decidable (∀ th, p th) :=
  decidable_of_iff (p .worker ∧ ∀ k, p (.client k))
    ⟨fun h th => match th with | .worker => h.1 | .client k => h.2 k, fun h => ⟨h _, fun _ => h _⟩⟩

/-- `it_value` of a `struct itimerspec`; the interval is always zero. -/
structure Itimerspec where
  sec : Nat
  nsec : Nat

/-- The delay of a setting in nanoseconds; zero disarms. -/
def Itimerspec.ns (spec : Itimerspec) : Nat := spec.sec * 1000000000 + spec.nsec

/-- `to_itimerspec`. -/
def toItimerspec (us : Nat) : Itimerspec :=
  let sec := us / 1000000
  let nsec := us % 1000000 * 1000
  if sec = 0 ∧ nsec = 0 then ⟨0, 1⟩ else ⟨sec, nsec⟩

/-- A timerfd: the instant it is armed for, and whether an expiration is unread. -/
structure Timerfd where
  deadline : Option Nat
  expired : Bool

/-- `gabs_mutex`: whether the last of init and deinit was an init, and the thread that holds it. -/
structure Mutex (m : Nat) where
  init : Bool
  owner : Option (Thread m)

/-- `gabs_mutex_lock` without a timeout: it waits for the holder. On a mutex that is not initialized it returns an
error, which the callers ignore. -/
def Mutex.lock {m : Nat} (l : Mutex m) (th : Thread m) : Option (Mutex m) :=
  if l.init then (if l.owner = none then some { l with owner := some th } else none) else some l

/-- `gabs_mutex_unlock`. -/
def Mutex.unlock {m : Nat} (l : Mutex m) : Mutex m := { l with owner := none }

/-- `revents` of a `struct pollfd`: nothing, `POLLIN`, or `POLLNVAL`. -/
inductive Revents
  | none | pollin | nval
  deriving DecidableEq

/-- `struct pollfd`; `events` is always `POLLIN`. -/
structure Pollfd where
  fd : Int
  revents : Revents
  deriving DecidableEq

/-! ## Program counters -/

/-- The body of the loop of `prepare_pfds`, with `timer_cleanup` (`close`, `reset`, `deinitLock`) inlined. -/
inductive Prepare
  | testUsed | testZombie | close | reset | deinitLock | testActive | cas | push | clearSched
  deriving DecidableEq

/-- `timer_alarm` and the `mask_clear` that follows it. -/
inductive Alarm
  | enter | lock | test | callback | unlock | clear
  deriving DecidableEq

/-- The body of the loop of `service_pfds`; `valid` and `compare` are the loop of `timer_from_fd`. -/
inductive Service (n : Nat)
  | head
  | read
  | valid (i : Fin n)
  | compare (i : Fin n)
  | alarm (i : Fin n) (p : Alarm)
  deriving DecidableEq

/-- Where the worker thread is. -/
inductive Worker (n : Nat)
  | top
  | prepare (i : Fin n) (p : Prepare)
  | poll
  | eventRead
  | service (j : Nat) (p : Service n)
  | exited
  deriving DecidableEq

/-- The worker's thread-local `firing`: set by `timer_alarm` while it runs. It is null in every other thread. -/
def Worker.firing {n : Nat} : Worker n → Option (Fin n)
  | .service _ (.alarm i .lock) => some i
  | .service _ (.alarm i .test) => some i
  | .service _ (.alarm i .callback) => some i
  | .service _ (.alarm i .unlock) => some i
  | _ => none

/-- `timer_add`, with `timer_alloc` inlined. `errClose`, `errReset`: the exits that give the slot back. -/
inductive Add (n : Nat)
  | alloc (i : Fin n)
  | fill (i : Fin n)
  | create (i : Fin n)
  | initLock (i : Fin n)
  | errClose (i : Fin n)
  | errReset (i : Fin n)
  | publish (i : Fin n)
  deriving DecidableEq

/-- `timer_restart`. `err`: the value of `errno` if `timerfd_settime` failed. -/
inductive Restart
  | clear
  | settime
  | setSched (err : Option Nat)
  | trigger (err : Option Nat)
  deriving DecidableEq

/-- `gabs_timer_stop`. -/
inductive Stop
  | clear
  | settime
  | trigger (status : Int)
  deriving DecidableEq

/-- `gabs_timer_uninstall`, around its call of `gabs_timer_stop`. -/
inductive Uninstall
  | lock
  | unlock
  | zombie
  deriving DecidableEq

/-- `gabs_timer_ctx_deinit`. -/
inductive Deinit (n : Nat)
  | exit
  | trigger
  | join
  | closeEvent
  | test (i : Fin n)
  | close (i : Fin n)
  | reset (i : Fin n)
  | deinitLock (i : Fin n)
  deriving DecidableEq

/-- The API call a thread is in. `start` is the check of `gabs_timer_start`, which goes on as a `restart`; in `stop`,
`un` tells that the call was made by `gabs_timer_uninstall`. -/
inductive Call (n : Nat)
  | idle
  | install (cb : Option Nat) (arg : Nat) (p : Add n)
  | uninstall (t : Fin n) (p : Uninstall)
  | start (t : Fin n) (us : Nat)
  | restart (t : Fin n) (us : Nat) (p : Restart)
  | stop (t : Fin n) (un : Bool) (p : Stop)
  | active (t : Fin n)
  | deinit (p : Deinit n)
  deriving DecidableEq

/-- What a call returns. -/
inductive Ret (n : Nat)
  | status (v : Int)
  | timer (t : Option (Fin n))
  | active (b : Bool)
  deriving DecidableEq

/-! ## States -/

/-- `work_state`. -/
inductive WorkState
  | normal | exit
  deriving DecidableEq

/-- The context, the timerfds by descriptor, the clock in nanoseconds, and the position of every thread. The array
`timers` is given by the fields of its slots: `cb`, `userArg`, `fd`, `state` and `lock` (the `ctx` of a slot is the
one context of the model). `ret` is what the last call of a thread returned. -/
structure Sys (n m : Nat) where
  cb : Fin n → Option Nat
  userArg : Fin n → Nat
  fd : Fin n → Int
  state : Fin n → Word
  lock : Fin n → Mutex m
  workState : WorkState
  eventfd : Int
  eventOpen : Bool
  eventCount : Nat
  fds : Int → Option Timerfd
  clock : Nat
  worker : Worker n
  pfds : List Pollfd
  calls : Thread m → Call n
  ret : Thread m → Option (Ret n)

variable {n m : Nat}

namespace Sys

@[simps] def setState (s : Sys n m) (i : Fin n) (w : Word) : Sys n m :=
  { s with state := Function.update s.state i w }

@[simps] def setLock (s : Sys n m) (i : Fin n) (l : Mutex m) : Sys n m :=
  { s with lock := Function.update s.lock i l }

@[simps] def setFd (s : Sys n m) (i : Fin n) (fd : Int) : Sys n m :=
  { s with fd := Function.update s.fd i fd }

@[simps] def setCb (s : Sys n m) (i : Fin n) (cb : Option Nat) (arg : Nat) : Sys n m :=
  { s with cb := Function.update s.cb i cb, userArg := Function.update s.userArg i arg }

@[simps] def setTfd (s : Sys n m) (fd : Int) (t : Option Timerfd) : Sys n m :=
  { s with fds := Function.update s.fds fd t }

@[simps] def setPfds (s : Sys n m) (pfds : List Pollfd) : Sys n m := { s with pfds := pfds }

@[simps] def setCount (s : Sys n m) (count : Nat) : Sys n m := { s with eventCount := count }

@[simps] def setWorkState (s : Sys n m) (w : WorkState) : Sys n m := { s with workState := w }

@[simps] def closeEvent (s : Sys n m) : Sys n m := { s with eventOpen := false }

@[simps] def setClock (s : Sys n m) (t : Nat) : Sys n m := { s with clock := t }

/-- The worker goes on at `w`. -/
@[simps] def work (s : Sys n m) (w : Worker n) : Sys n m := { s with worker := w }

/-- Thread `th` goes on at `c`. -/
@[simps] def goto (s : Sys n m) (th : Thread m) (c : Call n) : Sys n m :=
  { s with calls := Function.update s.calls th c }

/-- The call of thread `th` returns `v`. -/
@[simps] def done (s : Sys n m) (th : Thread m) (v : Ret n) : Sys n m :=
  { s with calls := Function.update s.calls th .idle, ret := Function.update s.ret th (some v) }

/-- `trigger_reset`. -/
@[simps] def triggerReset (s : Sys n m) : Sys n m := { s with eventCount := s.eventCount + 1 }

end Sys

/-! ## The environment's part in a step -/

/-- What the kernel or the C library answers to the call a step makes; other steps ignore it. For the trigger step
`err e` says that `errno` is `e` afterwards, for `mask_cas` that its first attempt failed spuriously. -/
inductive Reply
  | ok
  | err (e : Nat)
  | fd (d : Int)
  deriving DecidableEq

def Reply.isErr : Reply → Bool
  | .err _ => true
  | _ => false

/-- `timerfd_settime` on `fd`: the setting is replaced and an unread expiration is discarded, or nothing changes and
`errno` is given. -/
def timerfdSettime (s : Sys n m) (fd : Int) (spec : Itimerspec) (r : Reply) : Option (Sys n m × Option Nat) :=
  match r, s.fds fd with
  | .ok, some _ => some (s.setTfd fd (some ⟨if spec.ns = 0 then none else some (s.clock + spec.ns), false⟩), none)
  | .err e, _ => some (s, some e)
  | _, _ => none

/-- `timerfd_create`: a descriptor that is not open. -/
def Sys.fresh (s : Sys n m) (d : Int) : Bool :=
  decide (0 ≤ d) && (s.fds d).isNone && !(s.eventOpen && decide (d = s.eventfd))

/-- `EBUSY`. -/
def eBusy : Int := 16

/-! ## Cleanup -/

/-- `timer_cleanup`, the `close`. -/
@[simps] def cleanupClose (s : Sys n m) (i : Fin n) : Sys n m :=
  { s with fds := if 0 ≤ s.fd i then Function.update s.fds (s.fd i) none else s.fds }

/-- `timer_cleanup`, the `atomic_store`. -/
@[simps] def cleanupReset (s : Sys n m) (i : Fin n) : Sys n m := { s with state := Function.update s.state i 0 }

/-- `timer_cleanup`, the `gabs_mutex_deinit`. -/
@[simps] def cleanupLock (s : Sys n m) (i : Fin n) : Sys n m :=
  { s with lock := Function.update s.lock i ⟨false, none⟩ }

/-! ## The worker -/

/-- The loop of `prepare_pfds` from index `k`; past the last slot the worker polls. -/
def prepareFrom (n k : Nat) : Worker n := if h : k < n then .prepare ⟨k, h⟩ .testUsed else .poll

/-- The loop of `timer_from_fd` from index `k`; past the last slot it returns `NULL` and the next pollfd is next. -/
def findFrom (n j k : Nat) : Worker n := if h : k < n then .service j (.valid ⟨k, h⟩) else .service (j + 1) .head

/-- One step of `prepare_pfds` on slot `i`. -/
def preparePfdsStep (s : Sys n m) (i : Fin n) (p : Prepare) (r : Reply) : Sys n m :=
  let next := prepareFrom n (i + 1)
  match p with
  | .testUsed => if maskTest (s.state i) bitUsed then s.work (.prepare i .testZombie) else s.work next
  | .testZombie => s.work (.prepare i (if maskTest (s.state i) bitZombie then .close else .testActive))
  | .close => (cleanupClose s i).work (.prepare i .reset)
  | .reset => (cleanupReset s i).work (.prepare i .deinitLock)
  | .deinitLock => (cleanupLock s i).work next
  | .testActive => s.work (.prepare i (if maskTest (s.state i) bitActive then .push else .cas))
  | .cas =>
    match maskCas r.isErr (s.state i) bitSched bitActive with
    | some w => (s.setState i w).work (.prepare i .push)
    | none => s.work next
  | .push => (s.setPfds (s.pfds ++ [⟨s.fd i, .none⟩])).work (.prepare i .clearSched)
  | .clearSched => (s.setState i (maskClear (s.state i) bitSched)).work next

/-- `revents` as `poll` reports them now. -/
def Sys.ready (s : Sys n m) (fd : Int) : Revents :=
  if s.eventOpen ∧ fd = s.eventfd then (if s.eventCount = 0 then .none else .pollin)
  else match s.fds fd with
    | none => .nval
    | some t => if t.expired then .pollin else .none

/-- `poll` without a timeout returns when something is ready, or with an error. -/
def pollStep (s : Sys n m) (r : Reply) : Option (Sys n m) :=
  if r.isErr then some (s.work .top)
  else
    let pfds := s.pfds.map fun p => { p with revents := s.ready p.fd }
    if pfds.all fun p => p.revents = Revents.none then none
    else
      let first := (pfds.head?.map Pollfd.revents).getD .none
      some ((s.setPfds pfds).work (if first = .none then .service 0 .head else .eventRead))

/-- `read` of a descriptor: the expiration is consumed. -/
@[simps] def readFd (s : Sys n m) (fd : Int) : Sys n m :=
  { s with fds := Function.update s.fds fd ((s.fds fd).map fun t => { t with expired := false }) }

/-- One step of `timer_alarm` on slot `i`, and of the `mask_clear` after it. The callback returns when no API call
made from it is in progress. -/
def timerAlarmStep (s : Sys n m) (j : Nat) (i : Fin n) (p : Alarm) : Option (Sys n m) :=
  let go (s : Sys n m) (p : Alarm) : Sys n m := s.work (.service j (.alarm i p))
  match p with
  | .enter => some (go s (if s.cb i = none then .clear else .lock))
  | .lock => ((s.lock i).lock .worker).map fun l => go (s.setLock i l) .test
  | .test => some (go s (if maskTest (s.state i) bitActive then .callback else .unlock))
  | .callback => if s.calls .worker = .idle then some (go s .unlock) else none
  | .unlock => some (go (s.setLock i (s.lock i).unlock) .clear)
  | .clear => some ((s.setState i (maskClear (s.state i) bitActive)).work (.service (j + 1) .head))

/-- `timer_valid`. -/
def timerValid (w : Word) : Bool := maskGet w (bitUsed ||| bitZombie) == bitUsed

/-- One step of `service_pfds` on the pollfd of index `j`. -/
def servicePfdsStep (s : Sys n m) (j : Nat) (p : Service n) : Option (Sys n m) :=
  match s.pfds[j]? with
  | none => some (s.work .top)
  | some pfd =>
    match p with
    | .head => some (s.work (.service (if pfd.revents = .none then j + 1 else j)
        (if pfd.revents = .none then .head else .read)))
    | .read => some ((readFd s pfd.fd).work (if pfd.revents = .pollin then findFrom n j 0 else .service (j + 1) .head))
    | .valid i => some (s.work (if timerValid (s.state i) then .service j (.compare i) else findFrom n j (i + 1)))
    | .compare i =>
      some (s.work (if s.fd i = pfd.fd then .service j (.alarm i .enter) else findFrom n j (i + 1)))
    | .alarm i p => timerAlarmStep s j i p

/-- One step of `worker`. -/
def workerStep (s : Sys n m) (r : Reply) : Option (Sys n m) :=
  match s.worker with
  | .top =>
    if s.workState = .exit then some (s.work .exited)
    else some ((s.setPfds [⟨s.eventfd, .none⟩]).work (prepareFrom n 0))
  | .prepare i p => some (preparePfdsStep s i p r)
  | .poll => pollStep s r
  | .eventRead => if s.eventCount = 0 then none else some ((s.setCount (s.eventCount - 1)).work .top)
  | .service j p => servicePfdsStep s j p
  | .exited => none

/-! ## The API -/

/-- Where the loop of `timer_alloc` is at index `k`. -/
def allocCall (n : Nat) (cb : Option Nat) (arg k : Nat) : Call n :=
  if h : k < n then .install cb arg (.alloc ⟨k, h⟩) else .idle

/-- The loop of `timer_alloc` from index `k`; past the last slot the install returns `NULL`. -/
@[simps] def allocFrom (s : Sys n m) (th : Thread m) (cb : Option Nat) (arg k : Nat) : Sys n m :=
  { s with
    calls := Function.update s.calls th (allocCall n cb arg k)
    ret := if k < n then s.ret else Function.update s.ret th (some (.timer none)) }

/-- One step of `timer_add`. -/
def timerAddStep (s : Sys n m) (th : Thread m) (cb : Option Nat) (arg : Nat) (p : Add n) (r : Reply) :
    Option (Sys n m) :=
  let go (s : Sys n m) (p : Add n) : Sys n m := s.goto th (.install cb arg p)
  match p, r with
  | .alloc i, _ =>
    match maskSetStrict (s.state i) bitAlloc with
    | some w => some (go (s.setState i w) (.fill i))
    | none => some (allocFrom s th cb arg (i + 1))
  | .fill i, _ => some (go (s.setCb i cb arg) (.create i))
  | .create i, .fd d =>
    if s.fresh d then some (go ((s.setFd i d).setTfd d (some ⟨none, false⟩)) (.initLock i)) else none
  | .create i, .err _ => some (go (s.setFd i (-1)) (.errReset i))
  | .create _, .ok => none
  | .initLock i, .ok => some (go (s.setLock i ⟨true, none⟩) (.publish i))
  | .initLock i, _ => some (go s (.errClose i))
  | .errClose i, _ => some (go (s.setTfd (s.fd i) none) (.errReset i))
  | .errReset i, _ => some ((s.setState i 0).done th (.timer none))
  | .publish i, _ => some ((s.setState i (maskSet (s.state i) bitUsed)).done th (.timer (some i)))

/-- What `timer_restart` returns: the error is read from `errno` after the trigger, which may have changed it. -/
def restartStatus : Option Nat → Reply → Int
  | none, _ => 0
  | some _, .err e => -(e : Int)
  | some e, _ => -(e : Int)

/-- One step of `timer_restart`. -/
def timerRestartStep (s : Sys n m) (th : Thread m) (t : Fin n) (us : Nat) (p : Restart) (r : Reply) :
    Option (Sys n m) :=
  let go (s : Sys n m) (p : Restart) : Sys n m := s.goto th (.restart t us p)
  match p with
  | .clear => some (go (s.setState t (maskClear (s.state t) (bitActive ||| bitSched))) .settime)
  | .settime =>
    (timerfdSettime s (s.fd t) (toItimerspec us) r).map fun (s, err) => go s (.setSched err)
  | .setSched err => some (go (s.setState t (maskSet (s.state t) bitSched)) (.trigger err))
  | .trigger err => some (s.triggerReset.done th (.status (restartStatus err r)))

/-- One step of `gabs_timer_stop`. -/
def timerStopStep (s : Sys n m) (th : Thread m) (t : Fin n) (un : Bool) (p : Stop) (r : Reply) : Option (Sys n m) :=
  let go (s : Sys n m) (p : Stop) : Sys n m := s.goto th (.stop t un p)
  match p with
  | .clear => some (go (s.setState t (maskClear (s.state t) (bitActive ||| bitSched))) .settime)
  | .settime =>
    (timerfdSettime s (s.fd t) ⟨0, 0⟩ r).map fun (s, err) => go s (.trigger (-((err.getD 0 : Nat) : Int)))
  | .trigger status =>
    some (if un then s.triggerReset.goto th (.uninstall t .unlock) else s.triggerReset.done th (.status status))

/-- `firing == t` in thread `th`: the call is made from the callback of `t`. -/
def Sys.inCallbackOf (s : Sys n m) (th : Thread m) (t : Fin n) : Bool :=
  decide (th = .worker) && decide (s.worker.firing = some t)

/-- One step of `gabs_timer_uninstall`, with `timer_lock` and `timer_unlock`. -/
def timerUninstallStep (s : Sys n m) (th : Thread m) (t : Fin n) (p : Uninstall) : Option (Sys n m) :=
  match p with
  | .lock =>
    if s.inCallbackOf th t then some (s.goto th (.stop t true .clear))
    else ((s.lock t).lock th).map fun l => (s.setLock t l).goto th (.stop t true .clear)
  | .unlock =>
    some ((if s.inCallbackOf th t then s else s.setLock t (s.lock t).unlock).goto th (.uninstall t .zombie))
  | .zombie => some ((s.setState t (maskSet (s.state t) bitZombie)).done th (.status 0))

/-- Where the loop of `gabs_timer_ctx_deinit` is at index `k`. -/
def deinitCall (n k : Nat) : Call n := if h : k < n then .deinit (.test ⟨k, h⟩) else .idle

/-- The loop of `gabs_timer_ctx_deinit` from index `k`. -/
@[simps] def deinitFrom (s : Sys n m) (th : Thread m) (k : Nat) : Sys n m :=
  { s with
    calls := Function.update s.calls th (deinitCall n k)
    ret := if k < n then s.ret else Function.update s.ret th (some (.status 0)) }

/-- One step of `gabs_timer_ctx_deinit`. -/
def ctxDeinitStep (s : Sys n m) (th : Thread m) (p : Deinit n) : Option (Sys n m) :=
  let go (s : Sys n m) (p : Deinit n) : Sys n m := s.goto th (.deinit p)
  match p with
  | .exit => some (go (s.setWorkState .exit) .trigger)
  | .trigger => some (go s.triggerReset .join)
  | .join => if s.worker = .exited then some (go s .closeEvent) else none
  | .closeEvent => some (deinitFrom s.closeEvent th 0)
  | .test i => if maskTest (s.state i) bitUsed then some (go s (.close i)) else some (deinitFrom s th (i + 1))
  | .close i => some (go (cleanupClose s i) (.reset i))
  | .reset i => some (go (cleanupReset s i) (.deinitLock i))
  | .deinitLock i => some (deinitFrom (cleanupLock s i) th (i + 1))

/-- One step of the API call thread `th` is in. -/
def callStep (s : Sys n m) (th : Thread m) (r : Reply) : Option (Sys n m) :=
  match s.calls th with
  | .idle => none
  | .install cb arg p => timerAddStep s th cb arg p r
  | .uninstall t p => timerUninstallStep s th t p
  | .start t us =>
    if maskGet (s.state t) (bitActive ||| bitSched) ≠ 0 then some (s.done th (.status (-eBusy)))
    else some (s.goto th (.restart t us .clear))
  | .restart t us p => timerRestartStep s th t us p r
  | .stop t un p => timerStopStep s th t un p r
  | .active t => some (s.done th (.active (maskGet (s.state t) (bitActive ||| bitSched) != 0)))
  | .deinit p => ctxDeinitStep s th p

/-! ## The system -/

/-- The functions of the API. -/
inductive Op (n : Nat)
  | install (cb : Option Nat) (arg : Nat)
  | uninstall (t : Fin n)
  | start (t : Fin n) (us : Nat)
  | restart (t : Fin n) (us : Nat)
  | stop (t : Fin n)
  | active (t : Fin n)
  | deinit
  deriving DecidableEq

/-- Where a call is when the function is entered. -/
def Op.first : Op n → Call n
  | .install cb arg => allocCall n cb arg 0
  | .uninstall t => .uninstall t .lock
  | .start t us => .start t us
  | .restart t us => .restart t us .clear
  | .stop t => .stop t false .clear
  | .active t => .active t
  | .deinit => .deinit .exit

/-- Thread `th` enters a function. -/
def enter (s : Sys n m) (th : Thread m) : Op n → Sys n m
  | .install cb arg => allocFrom s th cb arg 0
  | op => s.goto th op.first

/-- The worker runs a callback. -/
def Worker.inCallback : Worker n → Bool
  | .service _ (.alarm _ .callback) => true
  | _ => false

/-- One action: a step of the worker, a call, a step of a call, an expiration, or time passing. -/
inductive Act (n m : Nat)
  | work (r : Reply)
  | call (th : Thread m) (op : Op n)
  | step (th : Thread m) (r : Reply)
  | expire (fd : Int)
  | tick (ns : Nat)
  deriving DecidableEq

/-- The kernel makes an armed timerfd readable once its deadline has passed. -/
def expireStep (s : Sys n m) (fd : Int) : Option (Sys n m) :=
  match s.fds fd with
  | some ⟨some d, _⟩ => if d ≤ s.clock then some (s.setTfd fd (some ⟨none, true⟩)) else none
  | _ => none

/-- **One step of the system.** -/
def step (s : Sys n m) : Act n m → Option (Sys n m)
  | .work r => workerStep s r
  | .call th op =>
    if s.calls th = .idle ∧ (th = .worker → s.worker.inCallback = true) then some (enter s th op) else none
  | .step th r => callStep s th r
  | .expire fd => expireStep s fd
  | .tick ns => some (s.setClock (s.clock + ns))

/-- The context after `gabs_timer_ctx_init`: zeroed memory, an eventfd with count zero, and the worker started. -/
def ctxInit (n m : Nat) (eventfd : Int) : Sys n m where
  cb _ := none
  userArg _ := 0
  fd _ := 0
  state _ := 0
  lock _ := ⟨false, none⟩
  workState := .normal
  eventfd := eventfd
  eventOpen := true
  eventCount := 0
  fds _ := none
  clock := 0
  worker := .top
  pfds := []
  calls _ := .idle
  ret _ := none

/-- A context and its users, from `gabs_timer_ctx_init` on. -/
def system (n m : Nat) : Lts (Sys n m) (Act n m) where
  init s := ∃ fd, 0 ≤ fd ∧ s = ctxInit n m fd
  step := step

end Gabs.Timer.Posix
