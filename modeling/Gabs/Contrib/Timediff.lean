import Gabs.Lib.Sizes
import Mathlib.Data.BitVec

/-!
# Absolute deadlines

- `Timespec`: a `struct timespec`, with its value in nanoseconds;
- `posixTimediffResolve`: the current time and a difference in microseconds give an absolute time;
- `gabsMutexLock`, `gabsSemDown`: the calls that wait until such a time;
- `resolve_exact_iff`: the deadline is exact as long as the difference in nanoseconds is a `uint64_t`.
-/

namespace Gabs.Contrib

/-- `struct timespec`: two `long`s. -/
structure Timespec where
  tvSec : BitVec 64
  tvNsec : BitVec 64
  deriving DecidableEq

/-- `0 <= tv_nsec < 10^9`. -/
def Timespec.Normal (t : Timespec) : Prop := 0 ≤ t.tvNsec.toInt ∧ t.tvNsec.toInt < 1000000000

instance (t : Timespec) : Decidable t.Normal := inferInstanceAs (Decidable (_ ∧ _))

/-- The time as a number of nanoseconds. -/
def Timespec.nanos (t : Timespec) : Int := t.tvSec.toInt * 1000000000 + t.tvNsec.toInt

/-- The difference is added to a time: all sums and products are those of `uint64_t`. -/
def Timespec.add (spec : Timespec) (diff : BitVec 64) : Timespec :=
  let sec := spec.tvSec + diff / 1000000
  let nsec := spec.tvNsec + diff * 1000 % 1000000000
  if 1000000000 ≤ nsec then ⟨sec + 1, nsec - 1000000000⟩ else ⟨sec, nsec⟩

/-- `posix_timediff_resolve`; `now` is what `clock_gettime` answers, a time or an `errno`. -/
def posixTimediffResolve (now : Except Nat Timespec) (diff : BitVec 64) : Except Int Timespec :=
  match now with
  | .error errno => .error (-errno)
  | .ok spec => .ok (spec.add diff)

/-- `UINT64_MAX`. -/
def uint64Max : BitVec 64 := BitVec.allOnes 64

/-- How a call waits. -/
inductive Wait
  | now
  | forever
  | until (spec : Timespec)
  deriving DecidableEq

/-- What the two callers have in common: how they wait for `timeout` microseconds. -/
def waitOf (now : Except Nat Timespec) (timeout : BitVec 64) : Except Int Wait :=
  if timeout = 0 then .ok .now
  else if timeout = uint64Max then .ok .forever
  else (posixTimediffResolve now timeout).map .until

/-- `gabs_mutex_lock`; `lock` is `pthread_mutex_trylock`, `pthread_mutex_lock` or `pthread_mutex_timedlock`. -/
def gabsMutexLock (lock : Wait → Int) (now : Except Nat Timespec) (timeout : BitVec 64) : Int :=
  match waitOf now timeout with
  | .error status => status
  | .ok w => -lock w

/-- `to_errno`. -/
def toErrno (status errno : Int) : Int := if status < 0 then -errno else status

/-- `gabs_sem_down`; `sem` is `sem_trywait`, `sem_wait` or `sem_timedwait`: what it returns, and `errno`. -/
def gabsSemDown (sem : Wait → Int × Int) (now : Except Nat Timespec) (timeout : BitVec 64) : Int :=
  match waitOf now timeout with
  | .error status => status
  | .ok w => toErrno (sem w).1 (sem w).2

/-! ## The sums -/

variable {t : Timespec} {d : BitVec 64}

theorem Timespec.Normal.toNat_lt (hn : t.Normal) : t.tvNsec.toNat < 1000000000 ∧ t.tvNsec.toInt = t.tvNsec.toNat := by
  have hlt := t.tvNsec.isLt
  have hint := BitVec.toInt_eq_toNat_bmod t.tvNsec
  obtain ⟨h1, h2⟩ := hn
  rw [BitVec.toInt_eq_toNat_cond] at h1 h2 ⊢
  split at h1 <;> split at h2 <;> split <;> omega

theorem toNat_nsec (hn : t.Normal) : (t.tvNsec + d * 1000 % 1000000000).toNat =
    t.tvNsec.toNat + d.toNat * 1000 % 2 ^ 64 % 1000000000 := by
  have hlt := hn.toNat_lt.1
  have h1000 : (1000 : BitVec 64).toNat = 1000 := rfl
  have hgiga : (1000000000 : BitVec 64).toNat = 1000000000 := rfl
  rw [BitVec.toNat_add, BitVec.toNat_umod, BitVec.toNat_mul, h1000, hgiga]
  omega

theorem toInt_sec (c : BitVec 64) (hc : c.toNat ≤ 1) : (t.tvSec + d / 1000000 + c).toInt =
    (t.tvSec.toInt + (d.toNat / 1000000 : Nat) + c.toNat).bmod (2 ^ 64) := by
  have hd := d.isLt
  have hmega : (1000000 : BitVec 64).toNat = 1000000 := rfl
  have hdiv : (d / 1000000).toInt = (d.toNat / 1000000 : Nat) := by
    rw [BitVec.toInt_eq_toNat_of_lt, BitVec.toNat_udiv, hmega]
    rw [BitVec.toNat_udiv, hmega]
    omega
  have hcarry : c.toInt = c.toNat := by
    rw [BitVec.toInt_eq_toNat_of_lt]
    omega
  rw [BitVec.toInt_add, BitVec.toInt_add, hdiv, hcarry, Int.bmod_add_bmod]

/-- The seconds and nanoseconds of the deadline, with the carry as a quotient. -/
theorem add_eq (hn : t.Normal) : ∃ c, c = (t.tvNsec.toNat + d.toNat * 1000 % 2 ^ 64 % 1000000000) / 1000000000 ∧
    (t.add d).tvNsec.toNat = t.tvNsec.toNat + d.toNat * 1000 % 2 ^ 64 % 1000000000 - c * 1000000000 ∧
    (t.add d).tvSec.toInt = (t.tvSec.toInt + (d.toNat / 1000000 : Nat) + c).bmod (2 ^ 64) := by
  have hlt := hn.toNat_lt.1
  have hsum := toNat_nsec (d := d) hn
  have hgiga : (1000000000 : BitVec 64).toNat = 1000000000 := rfl
  refine ⟨_, rfl, ?_⟩
  rw [Timespec.add]
  by_cases hle : 1000000000 ≤ t.tvNsec + d * 1000 % 1000000000
  · have hcarry := BitVec.le_def.mp hle
    rw [hgiga, hsum] at hcarry
    have hone : (t.tvNsec.toNat + d.toNat * 1000 % 2 ^ 64 % 1000000000) / 1000000000 = 1 := by omega
    rw [if_pos hle, hone]
    refine ⟨?_, toInt_sec 1 le_rfl⟩
    rw [BitVec.toNat_sub_of_le hle, hsum, hgiga]
  · have hcarry := mt BitVec.le_def.mpr hle
    rw [hgiga, hsum] at hcarry
    have hzero : (t.tvNsec.toNat + d.toNat * 1000 % 2 ^ 64 % 1000000000) / 1000000000 = 0 := by omega
    rw [if_neg hle, hzero]
    refine ⟨by rw [hsum]; omega, ?_⟩
    have hsec := toInt_sec (t := t) (d := d) 0#64 (Nat.zero_le 1)
    rwa [BitVec.add_zero] at hsec

/-! ## The deadlines -/

theorem add_normal (hn : t.Normal) : (t.add d).Normal := by
  obtain ⟨c, hc, hnsec, -⟩ := add_eq (d := d) hn
  have hlt := hn.toNat_lt.1
  have hsmall : (t.add d).tvNsec.toNat < 1000000000 := by omega
  have hint : (t.add d).tvNsec.toInt = (t.add d).tvNsec.toNat := by
    rw [BitVec.toInt_eq_toNat_of_lt]
    omega
  rw [Timespec.Normal, hint]
  omega

/-- A quotient that is lost does not change a remainder only if it is a multiple of the divisor. -/
theorem dvd_of_mod_mod {y m g : Nat} (h : y % m % g = y % g) : g ∣ m * (y / m) := by
  have hlost := (Nat.modEq_iff_dvd' (Nat.mod_le y m)).mp h
  rwa [← Nat.mul_div_self_eq_mod_sub_self] at hlost

/-- The low bits of a product are enough for its last nine digits only if they are the whole product. -/
theorem mod_mod_iff {x : Nat} (hx : x < 2 ^ 64) :
    x * 1000 % 2 ^ 64 % 1000000000 = x * 1000 % 1000000000 ↔ 1000 * x < 2 ^ 64 := by
  rw [Nat.mul_comm 1000]
  constructor
  · intro h
    -- `5 ^ 9` divides the quotient that is lost, which is less than 1000.
    have hfive : 5 ^ 9 ∣ x * 1000 / 2 ^ 64 := by
      have hcop : Nat.Coprime (5 ^ 9) (2 ^ 64) := Nat.Coprime.pow 9 64 (by decide)
      exact hcop.dvd_of_dvd_mul_left (Nat.dvd_trans ⟨2 ^ 9, rfl⟩ (dvd_of_mod_mod h))
    have hsmall : x * 1000 / 2 ^ 64 < 5 ^ 9 := by
      rw [Nat.div_lt_iff_lt_mul (by decide)]
      omega
    exact (Nat.div_eq_zero_iff_lt (by decide)).mp (Nat.eq_zero_of_dvd_of_lt hfive hsmall)
  · intro h
    rw [Nat.mod_eq_of_lt h]

/-- A sum of seconds, as a `long`. -/
theorem bmod_cases {v : Int} (hlo : -(2 ^ 63 : Nat) ≤ v) (hhi : v < (2 ^ 64 : Nat)) :
    v < (2 ^ 63 : Nat) ∧ v.bmod (2 ^ 64) = v ∨ (2 ^ 63 : Nat) ≤ v ∧ v.bmod (2 ^ 64) = v - (2 ^ 64 : Nat) := by
  rcases lt_or_ge v (2 ^ 63 : Nat) with h | h
  · left
    refine ⟨h, ?_⟩
    rw [Int.bmod_eq_of_le] <;> omega
  · right
    refine ⟨h, ?_⟩
    rw [Int.bmod_def, Int.emod_eq_of_lt (by omega) (by omega)]
    split <;> omega

/-- Seconds `s` and nanoseconds `ns` are added to `q` and `r`, with a carry: the sum is that with `q` and `r'` only if
the nanoseconds are the same. -/
theorem carry_exact_iff {s : Int} {ns q r r' c : Nat} (hlo : -(2 ^ 63 : Nat) ≤ s) (hhi : s < (2 ^ 63 : Nat))
    (hns : ns < 1000000000) (hq : q < 2 ^ 63) (hr : r < 1000000000) (hr' : r' < 1000000000)
    (hc : c = (ns + r) / 1000000000)
    (hroom : s * 1000000000 + ns + (q * 1000000000 + r' : Nat) < (2 ^ 63 * 1000000000 : Nat)) :
    (s + q + c).bmod (2 ^ 64) * 1000000000 + (ns + r - c * 1000000000 : Nat) =
      s * 1000000000 + ns + (q * 1000000000 + r' : Nat) ↔ r = r' := by
  rcases bmod_cases (v := s + q + c) (by omega) (by omega) with ⟨h, he⟩ | ⟨h, he⟩ <;> rw [he] <;> omega

/-- **The sum is exact** iff the difference in nanoseconds is a `uint64_t`. -/
theorem add_exact_iff (hn : t.Normal) (hroom : t.nanos + 1000 * d.toNat < (2 ^ 63 * 1000000000 : Nat)) :
    (t.add d).nanos = t.nanos + 1000 * d.toNat ↔ 1000 * d.toNat < 2 ^ 64 := by
  obtain ⟨c, hc, hnsec, hsec⟩ := add_eq (d := d) hn
  have hd := d.isLt
  have hlo := BitVec.le_toInt t.tvSec
  have hhi := BitVec.toInt_lt (x := t.tvSec)
  obtain ⟨hlt, hold⟩ := hn.toNat_lt
  have hnew := (add_normal (d := d) hn).toNat_lt.2
  have hsplit : (1000 * d.toNat : Int) = (d.toNat / 1000000 * 1000000000 + d.toNat * 1000 % 1000000000 : Nat) := by
    omega
  rw [Timespec.nanos, hold, hsplit] at hroom
  rw [Timespec.nanos, Timespec.nanos, hsec, hnew, hold, hnsec, hsplit, ← mod_mod_iff hd]
  exact carry_exact_iff hlo hhi hlt (by omega) (Nat.mod_lt _ (by decide)) (Nat.mod_lt _ (by decide)) hc hroom

/-- **Deadlines are exact** iff the timeout in nanoseconds is a `uint64_t`: the deadline that `gabs_mutex_lock` and
`gabs_sem_down` wait for is normalized and is the current time plus the timeout, and no smaller timeout has a later
one. -/
theorem deadline_exact (hn : t.Normal) (hd : d ≠ 0) (hmax : d ≠ uint64Max)
    (hroom : t.nanos + 1000 * d.toNat < (2 ^ 63 * 1000000000 : Nat)) :
    ∃ spec, posixTimediffResolve (.ok t) d = .ok spec ∧
      (∀ lock, gabsMutexLock lock (.ok t) d = -lock (.until spec)) ∧
      (∀ sem, gabsSemDown sem (.ok t) d = toErrno (sem (.until spec)).1 (sem (.until spec)).2) ∧
      (spec.Normal ∧ spec.nanos = t.nanos + 1000 * d.toNat ∧
          (∀ e spec', e ≤ d → posixTimediffResolve (.ok t) e = .ok spec' → spec'.nanos ≤ spec.nanos) ↔
        1000 * d.toNat < 2 ^ 64) := by
  have hwait : waitOf (.ok t) d = .ok (.until (t.add d)) := by
    rw [waitOf, if_neg hd, if_neg hmax]
    rfl
  refine ⟨t.add d, rfl, fun lock => ?_, fun sem => ?_, fun h => (add_exact_iff hn hroom).mp h.2.1, fun h => ?_⟩
  · rw [gabsMutexLock, hwait]
  · rw [gabsSemDown, hwait]
  · have hexact := (add_exact_iff hn hroom).mpr h
    refine ⟨add_normal hn, hexact, fun e spec' he hspec => ?_⟩
    cases hspec
    have hle := BitVec.le_def.mp he
    rw [hexact, (add_exact_iff hn (by omega)).mpr (by omega)]
    omega

/-- Half a second past noon, and a timeout of 700 milliseconds: the nanoseconds carry. -/
theorem deadline_exact_carry : ∃ spec, posixTimediffResolve (.ok ⟨43200, 500000000⟩) 700000 = .ok spec ∧
    spec.Normal ∧ spec.nanos = (43201200000000 : Int) := by
  obtain ⟨spec, hspec, -, -, hiff⟩ := deadline_exact (t := ⟨43200, 500000000⟩) (d := 700000) (by decide) (by decide)
    (by decide) (by decide)
  obtain ⟨hnormal, hexact, -⟩ := hiff.mpr (by decide)
  exact ⟨spec, hspec, hnormal, hexact.trans (by decide)⟩

/-- **A microsecond more, and the deadline is earlier**: from 2^64 nanoseconds on, the product has lost its top bits. -/
theorem deadline_earlier : ∃ (t spec spec' : Timespec) (d : BitVec 64), t.Normal ∧ d ≠ 0 ∧
    d + 1 ≠ uint64Max ∧ d < d + 1 ∧ t.nanos + 1000 * (d + 1).toNat < (2 ^ 63 * 1000000000 : Nat) ∧
    waitOf (.ok t) d = .ok (.until spec) ∧ waitOf (.ok t) (d + 1) = .ok (.until spec') ∧
    spec'.nanos ≠ t.nanos + 1000 * (d + 1).toNat ∧ spec'.nanos < spec.nanos :=
  ⟨⟨0, 0⟩, _, _, 18446744073709551, by decide, by decide, by decide, by decide, by decide, rfl,
    rfl, by decide, by decide⟩

end Gabs.Contrib
