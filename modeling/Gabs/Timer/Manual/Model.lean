import Gabs.Lib.Lts
import Gabs.Lib.Sizes
import Mathlib.Data.List.FinRange

/-!
# The manual timer

- `Slot`, `Ctx`: the slots of the pool, and the context with its clock;
- `install`, `uninstall`, `start`, `restart`, `stop`: the functions of the API;
- `nextExpired`: the timer `gabs_timer_manual_advance` fires next;
- `Sys`: a context and the C stack above it: the calls of `gabs_timer_manual_advance` and the callbacks that run;
- `step`: a callback, or the client where none runs, makes a call or returns; `gabs_timer_manual_advance` goes on.

The clock, the delays and the sequence numbers are `uint64_t`: their sums wrap.
-/

namespace Gabs.Timer.Manual

open Gabs.Lib

variable {n : Nat}

/-! ## The pool -/

/-- `struct gabs_timer_manual`. The `ctx` of a slot in use is the one context of the model. -/
@[ext] structure Slot where
  cb : Option Nat
  userArg : Nat
  used : Bool
  active : Bool
  expiryUs : Nat
  seq : Nat
  deriving DecidableEq

/-- A slot after `memset`. -/
def Slot.zero : Slot := ⟨none, 0, false, false, 0, 0⟩

/-- `struct gabs_timer_manual_ctx`. -/
@[ext] structure Ctx (n : Nat) where
  nowUs : Nat
  nextSeq : Nat
  timers : Fin n → Slot

/-- `gabs_timer_ctx_init`. -/
def ctxInit (n : Nat) : Ctx n := ⟨0, 0, fun _ => .zero⟩

/-- A `uint64_t`. -/
def wrap (x : Nat) : Nat := x % 2 ^ 64

theorem wrap_of_lt {x : Nat} (h : x < 2 ^ 64) : wrap x = x := Nat.mod_eq_of_lt h

/-- Slot `i` is `t`. -/
@[simps] def Ctx.put (c : Ctx n) (i : Fin n) (t : Slot) : Ctx n := { c with timers := Function.update c.timers i t }

@[simps] def Ctx.setNow (c : Ctx n) (us : Nat) : Ctx n := { c with nowUs := us }

/-! ## The API -/

/-- `EBUSY`. -/
def eBusy : Int := 16

/-- `EINVAL`. -/
def eInval : Int := 22

/-- `INT_MAX`. -/
def intMax : Nat := 2 ^ 31 - 1

/-- An `int` that has been incremented `k` times from 0: past `INT_MAX` it overflows, and has no value. -/
def intOf (k : Nat) : Option Int := if k ≤ intMax then some k else none

theorem intOf_eq_some_iff {k : Nat} : intOf k = some (k : Int) ↔ k ≤ intMax := by
  unfold intOf
  split <;> simp_all

/-- `gabs_timer_install`. -/
def install (c : Ctx n) (cb : Option Nat) (arg : Nat) : Ctx n × Option (Fin n) :=
  match (List.finRange n).find? fun i => !(c.timers i).used with
  | some i => (c.put i { Slot.zero with used := true, cb := cb, userArg := arg }, some i)
  | none => (c, none)

/-- `gabs_timer_uninstall`. -/
def uninstall (c : Ctx n) (t : Fin n) : Ctx n × Int :=
  (c.put t { c.timers t with active := false, used := false }, 0)

/-- `gabs_timer_restart`. -/
def restart (c : Ctx n) (t : Fin n) (delayUs : Nat) : Ctx n × Int :=
  let armed := { c.timers t with active := true, expiryUs := wrap (c.nowUs + delayUs), seq := c.nextSeq }
  ({ c.put t armed with nextSeq := wrap (c.nextSeq + 1) }, 0)

/-- `gabs_timer_start`. -/
def start (c : Ctx n) (t : Fin n) (delayUs : Nat) : Ctx n × Int :=
  if (c.timers t).active then (c, -eBusy) else restart c t delayUs

/-- `gabs_timer_stop`. -/
def stop (c : Ctx n) (t : Fin n) : Ctx n × Int := (c.put t { c.timers t with active := false }, 0)

/-- The body of the loop of `next_expired`: `next` is the best slot before slot `i`. -/
def pick (c : Ctx n) (endUs : Nat) (next : Option (Fin n)) (i : Fin n) : Option (Fin n) :=
  let cur := c.timers i
  if !cur.used || !cur.active || decide (endUs < cur.expiryUs) then next
  else match next with
    | none => some i
    | some j =>
      let nxt := c.timers j
      if cur.expiryUs < nxt.expiryUs ∨ cur.expiryUs = nxt.expiryUs ∧ cur.seq < nxt.seq then some i else some j

/-- `next_expired`. -/
def nextExpired (c : Ctx n) (endUs : Nat) : Option (Fin n) := (List.finRange n).foldl (pick c endUs) none

/-! ## The stack -/

/-- The functions that a client or a callback calls, apart from `gabs_timer_manual_advance`. -/
inductive Op (n : Nat)
  | install (cb : Option Nat) (arg : Nat)
  | uninstall (t : Fin n)
  | start (t : Fin n) (us : Nat)
  | restart (t : Fin n) (us : Nat)
  | stop (t : Fin n)
  | active (t : Fin n)
  | now
  | fire (t : Fin n)
  deriving DecidableEq

/-- What a call returns; `count k` is the `int` of `gabs_timer_manual_advance`, after `k` increments. -/
inductive Ret (n : Nat)
  | status (v : Int)
  | timer (t : Option (Fin n))
  | active (b : Bool)
  | now (us : Nat)
  | count (k : Nat)
  deriving DecidableEq

/-- A frame of the stack: the loop of `gabs_timer_manual_advance`, with its `end_us` and the increments of its `count`,
or a callback of `timer_fire`. -/
inductive Frame (n : Nat)
  | advance (endUs : Nat) (count : Nat)
  | callback (t : Fin n)
  deriving DecidableEq

/-- A context, the stack, the top of it first, and what the last call has returned. -/
structure Sys (n : Nat) where
  ctx : Ctx n
  frames : List (Frame n)
  ret : Ret n

/-- The `int` that `gabs_timer_manual_advance` returns. -/
def Ret.int : Ret n → Option Int
  | .count k => intOf k
  | .status _ | .timer _ | .active _ | .now _ => none

/-- A client that has just made `gabs_timer_ctx_init`. -/
def boot (n : Nat) : Sys n := ⟨ctxInit n, [], .status 0⟩

/-- Code of the client runs: a callback, or what is below all of them. -/
def Sys.inClient (s : Sys n) : Bool :=
  match s.frames with
  | .advance _ _ :: _ => false
  | _ => true

/-- `timer_fire`, up to the callback. -/
def timerFire (s : Sys n) (t : Fin n) : Option (Sys n) :=
  if (s.ctx.timers t).cb = none then none
  else some { s with ctx := s.ctx.put t { s.ctx.timers t with active := false }, frames := .callback t :: s.frames }

/-- A call; `gabs_timer_manual_fire` of an active timer starts the callback. -/
def callStep (s : Sys n) : Op n → Option (Sys n)
  | .install cb arg => let (c, t) := install s.ctx cb arg; some { s with ctx := c, ret := .timer t }
  | .uninstall t => let (c, v) := uninstall s.ctx t; some { s with ctx := c, ret := .status v }
  | .start t us => let (c, v) := start s.ctx t us; some { s with ctx := c, ret := .status v }
  | .restart t us => let (c, v) := restart s.ctx t us; some { s with ctx := c, ret := .status v }
  | .stop t => let (c, v) := stop s.ctx t; some { s with ctx := c, ret := .status v }
  | .active t => some { s with ret := .active (s.ctx.timers t).active }
  | .now => some { s with ret := .now s.ctx.nowUs }
  | .fire t => if (s.ctx.timers t).active then timerFire s t else some { s with ret := .status (-eInval) }

/-- The loop of `gabs_timer_manual_advance`, with `endUs` and `count`, above the frames `fs`: the next timer fires, or
the call returns. -/
def advanceLoop (s : Sys n) (endUs count : Nat) (fs : List (Frame n)) : Option (Sys n) :=
  match nextExpired s.ctx endUs with
  | some t => timerFire { s with ctx := s.ctx.setNow (s.ctx.timers t).expiryUs } t
  | none => some ⟨s.ctx.setNow endUs, fs, .count count⟩

/-- One action: a call, a call of `gabs_timer_manual_advance`, the return of a callback, or the loop goes on. -/
inductive Act (n : Nat)
  | call (op : Op n)
  | advance (us : Nat)
  | ret
  | loop
  deriving DecidableEq

/-- **One step.** A callback that returns to the loop is counted. -/
def step (s : Sys n) : Act n → Option (Sys n)
  | .call op => if s.inClient then callStep s op else none
  | .advance us =>
    if s.inClient then some { s with frames := .advance (wrap (s.ctx.nowUs + us)) 0 :: s.frames } else none
  | .ret =>
    match s.frames with
    | .callback _ :: .advance e k :: fs => some { s with frames := .advance e (k + 1) :: fs }
    | .callback _ :: fs => some { s with frames := fs, ret := .status 0 }
    | _ => none
  | .loop =>
    match s.frames with
    | .advance e k :: fs => advanceLoop s e k fs
    | _ => none

/-- A context and its users, from `gabs_timer_ctx_init` on. -/
def system (n : Nat) : Lts (Sys n) (Act n) := ⟨(· = boot n), step⟩

/-! ## What is promised -/

/-- The timer a function is called on. -/
def Op.timer : Op n → Option (Fin n)
  | .uninstall t | .start t _ | .restart t _ | .stop t | .active t | .fire t => some t
  | .install _ _ | .now => none

/-- The timer that a call arms, and its delay. -/
def Op.arms (c : Ctx n) : Op n → Option (Fin n × Nat)
  | .start t us => if (c.timers t).active then none else some (t, us)
  | .restart t us => some (t, us)
  | _ => none

/-- **Handles are valid and no sum wraps**; `gabs_timer_manual_advance` is not called from a callback. -/
def Usable (s : Sys n) : Act n → Prop
  | .call op => (∀ t ∈ op.timer, (s.ctx.timers t).used = true) ∧
      ∀ x ∈ op.arms s.ctx, s.ctx.nowUs + x.2 < 2 ^ 64 ∧ s.ctx.nextSeq + 1 < 2 ^ 64
  | .advance us => s.frames = [] ∧ s.ctx.nowUs + us < 2 ^ 64
  | _ => True

instance (s : Sys n) (a : Act n) : Decidable (Usable s a) := by
  unfold Usable; split <;> infer_instance

end Gabs.Timer.Manual
