import Mathlib.Data.BitVec

/-!
# The state word of a timer and its mask operations

- `Word`, `Bit`, `Bit.mask`: the `atomic_uint` and the five `BIT_*` flags;
- `maskSet`, `maskSetStrict`, `maskClear`, `maskCas`, `maskGet`, `maskTest`: what one call of each operation of
  `atomic_mask.h` publishes from the word it succeeds on;
- `Word.has` and its simp lemmas: the flags of a word after each operation.
-/

namespace Gabs.Timer.Posix

/-- `atomic_uint`. -/
abbrev Word := BitVec 32

/-- The flags of the state word. -/
inductive Bit
  | used | zombie | active | sched | alloc
  deriving DecidableEq, Repr

/-- The position of a flag. -/
def Bit.pos : Bit → Nat
  | .used => 0
  | .zombie => 1
  | .active => 2
  | .sched => 3
  | .alloc => 4

/-- The mask of a flag, `1 << pos`. -/
def Bit.mask (b : Bit) : Word := 1#32 <<< b.pos

/-- `BIT_USED`: set by the client, unset by the worker. -/
def bitUsed : Word := Bit.used.mask

/-- `BIT_ZOMBIE`: set by the client, unset by the worker. -/
def bitZombie : Word := Bit.zombie.mask

/-- `BIT_ACTIVE`: set and unset by the worker, unset by the client. -/
def bitActive : Word := Bit.active.mask

/-- `BIT_SCHED`: set by the client, unset by the worker. -/
def bitSched : Word := Bit.sched.mask

/-- `BIT_ALLOC`: set by the client, unset by the worker. -/
def bitAlloc : Word := Bit.alloc.mask

/-! ## The operations -/

/-- `mask_set`: the compare-exchange that succeeds publishes `expected | mask`, and `expected` is the word then. -/
def maskSet (w mask : Word) : Word := w ||| mask

/-- `mask_set_strict`: fails, without a store, on a word that has a bit of the mask. -/
def maskSetStrict (w mask : Word) : Option Word := if w &&& mask ≠ 0 then none else some (w ||| mask)

/-- `mask_clear`. -/
def maskClear (w mask : Word) : Word := w &&& ~~~mask

/-- `mask_cas`. The first attempt compares with `cmp` itself and publishes `set` alone; every later attempt keeps
the word it read. `spurious`: the first attempt failed although the word was `cmp`. -/
def maskCas (spurious : Bool) (w cmp set : Word) : Option Word :=
  if w = cmp ∧ spurious = false then some set
  else if w &&& cmp ≠ cmp then none
  else some (w ||| set)

/-- `mask_get`. -/
def maskGet (w mask : Word) : Word := w &&& mask

/-- `mask_test`: all bits of the mask are set. -/
def maskTest (w mask : Word) : Bool := maskGet w mask == mask

/-! ## The flags of a word -/

/-- The flag `b` of the word. -/
def Word.has (w : Word) (b : Bit) : Bool := w.getLsbD b.pos

theorem Bit.pos_lt (b : Bit) : b.pos < 32 := by cases b <;> decide

theorem Bit.mask_eq (b : Bit) : b.mask = BitVec.twoPow 32 b.pos := by cases b <;> rfl

@[simp] theorem has_mask (b c : Bit) : Word.has b.mask c = decide (b = c) := by cases b <;> cases c <;> decide

@[simp] theorem has_zero (b : Bit) : Word.has 0#32 b = false := by cases b <;> decide

@[simp] theorem has_maskSet (w mask : Word) (b : Bit) : (maskSet w mask).has b = (w.has b || mask.has b) := by
  simp [maskSet, Word.has]

@[simp] theorem has_maskClear (w mask : Word) (b : Bit) :
    (maskClear w mask).has b = (w.has b && !mask.has b) := by
  simp [maskClear, Word.has, b.pos_lt]

@[simp] theorem maskClear_zero (mask : Word) : maskClear 0#32 mask = 0#32 := by simp [maskClear]

@[simp] theorem has_or (v w : Word) (b : Bit) : Word.has (v ||| w) b = (v.has b || w.has b) := by
  simp [Word.has]

/-- The bits of a flag in a word: the flag or nothing. -/
theorem and_mask (w : Word) (b : Bit) : w &&& b.mask = if w.has b then b.mask else 0 := by
  rw [b.mask_eq, BitVec.and_twoPow]
  rfl

theorem mask_ne_zero (b : Bit) : b.mask ≠ 0 := by cases b <;> decide

@[simp] theorem maskTest_mask (w : Word) (b : Bit) : maskTest w b.mask = w.has b := by
  have hb := mask_ne_zero b
  rw [maskTest, maskGet, and_mask]
  cases w.has b
  · simpa using hb.symm
  · simp

/-- `mask_set_strict` with one flag: it succeeds exactly on the words without the flag. -/
theorem maskSetStrict_mask (w : Word) (b : Bit) :
    maskSetStrict w b.mask = if w.has b then none else some (maskSet w b.mask) := by
  have hb := mask_ne_zero b
  rw [maskSetStrict, and_mask]
  cases w.has b <;> simp_all [maskSet]

/-- `mask_cas` with two flags, on a word that is not the first flag alone: the second flag is added. -/
theorem maskCas_mask (spurious : Bool) {w : Word} {b c : Bit} (hw : w ≠ b.mask) :
    maskCas spurious w b.mask c.mask = if w.has b then some (maskSet w c.mask) else none := by
  have hb := (mask_ne_zero b).symm
  rw [maskCas, and_mask]
  cases w.has b <;> simp_all [maskSet]

/-- The flags a successful `mask_cas` leaves: the second flag is set, and nothing outside the first is lost. -/
theorem has_of_maskCas {spurious : Bool} {w w' : Word} {b c : Bit} (h : maskCas spurious w b.mask c.mask = some w') :
    w.has b = true ∧ ∀ d, d ≠ b → w'.has d = (w.has d || decide (c = d)) := by
  by_cases hw : w = b.mask
  · subst hw
    refine ⟨by simp, fun d hd => ?_⟩
    rw [maskCas, and_mask] at h
    cases spurious <;> simp_all [eq_comm]
  · rw [maskCas_mask spurious hw] at h
    cases hb : w.has b <;> simp_all
    subst h
    simp

/-- `mask_get` with two flags: nothing is left exactly when neither is set. -/
theorem maskGet_or_eq_zero (w : Word) (b c : Bit) :
    maskGet w (b.mask ||| c.mask) = 0 ↔ w.has b = false ∧ w.has c = false := by
  have hb := mask_ne_zero b
  have hc := mask_ne_zero c
  have h : maskGet w (b.mask ||| c.mask) = (w &&& b.mask) ||| (w &&& c.mask) := by
    rw [maskGet, BitVec.and_or_distrib_left]
  rw [h, and_mask, and_mask]
  cases w.has b <;> cases w.has c <;> simp_all [BitVec.or_eq_zero_iff]

end Gabs.Timer.Posix
