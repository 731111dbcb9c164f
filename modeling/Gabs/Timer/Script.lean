import Gabs.Lib.Mealy

/-!
# What a callback asks of its own timer

- `OwnCall`, `Answer`: the calls, and what they return;
- `flag`: a timer that is one flag, active or not;
- `Entry`: a call of a script with its answer.
-/

namespace Gabs.Timer

open Gabs.Lib

/-- `gabs_timer_start`, `gabs_timer_restart`, `gabs_timer_stop` and `gabs_timer_active`, called by a callback on its own
timer. -/
inductive OwnCall
  | start (us : Nat)
  | restart (us : Nat)
  | stop
  | active
  deriving DecidableEq

/-- What such a call returns. -/
inductive Answer
  | status (v : Int)
  | active (b : Bool)
  deriving DecidableEq

/-- `EBUSY`. -/
def ebusy : Int := 16

/-- **A timer that is one flag**: a start of an active timer fails. -/
def flag : Mealy Bool OwnCall Answer where
  step b
    | .start _ | .restart _ => true
    | .stop => false
    | .active => b
  out b
    | .start _ => .status (if b then -ebusy else 0)
    | .restart _ | .stop => .status 0
    | .active => .active b

/-- A call that a callback has made on its own timer, and its answer. -/
structure Entry where
  call : OwnCall
  answer : Answer
  deriving DecidableEq

/-- The calls of a script. -/
def calls (l : List Entry) : List OwnCall := l.map Entry.call

/-- Their answers. -/
def answers (l : List Entry) : List Answer := l.map Entry.answer

@[simp] theorem calls_concat (l : List Entry) (e : Entry) : calls (l ++ [e]) = calls l ++ [e.call] := by
  simp [calls]

@[simp] theorem answers_concat (l : List Entry) (e : Entry) : answers (l ++ [e]) = answers l ++ [e.answer] := by
  simp [answers]

/-- A call that sets the flag, whatever it was. -/
def OwnCall.sets : OwnCall → Bool
  | .restart _ | .stop => true
  | .start _ | .active => false

/-- The answers tell an active timer from one that is not, unless the first call sets the flag. -/
theorem flag_outs_iff (l : List OwnCall) :
    flag.outs true l = flag.outs false l ↔ l = [] ∨ l.head?.any OwnCall.sets = true := by
  cases l with
  | nil => simp [Mealy.outs]
  | cons q l => cases q <;> simp [Mealy.outs, OwnCall.sets, ebusy, flag]

end Gabs.Timer
