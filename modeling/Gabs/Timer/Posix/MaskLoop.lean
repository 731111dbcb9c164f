import Gabs.Lib.CasLoop
import Gabs.Timer.Posix.AtomicMask

/-!
# The mask operations, attempt by attempt

- `maskSetLoop`, `maskSetStrictLoop`, `maskClearLoop`, `maskCasLoop`: the loops of `atomic_mask.h`;
- `maskSet_loop` …: what each of them means is the operation of that name;
- `maskCas_alone`: `mask_cas` without interference. Its first guess is not one of its body's (`OneMeaning`);
- `mask_atomic`: the other loops are atomic, for any number of threads.
-/

namespace Gabs.Timer.Posix

open Gabs.Lib

/-! ## The loops -/

/-- What an operation returns: nothing, or a `bool`. -/
abbrev MaskRet := Option Bool

/-- The loop of `mask_set`. -/
def maskSetLoop (mask : Word) : CasLoop Word MaskRet := ⟨⟨0, mask⟩, fun expected => .ok (expected ||| mask), none⟩

/-- The loop of `mask_set_strict`. -/
def maskSetStrictLoop (mask : Word) : CasLoop Word MaskRet :=
  ⟨⟨0, mask⟩, fun expected => if expected &&& mask ≠ 0 then .error (some false) else .ok (expected ||| mask), some true⟩

/-- The loop of `mask_clear`. -/
def maskClearLoop (mask : Word) : CasLoop Word MaskRet := ⟨⟨0, 0⟩, fun expected => .ok (expected &&& ~~~mask), none⟩

/-- The loop of `mask_cas`. -/
def maskCasLoop (cmp set : Word) : CasLoop Word MaskRet :=
  ⟨⟨cmp, set⟩,
    fun expected => if expected &&& cmp ≠ cmp then .error (some false) else .ok (expected ||| set), some true⟩

theorem maskSet_loop (w mask : Word) : (maskSetLoop mask).atomically w = (maskSet w mask, none) := rfl

theorem maskClear_loop (w mask : Word) : (maskClearLoop mask).atomically w = (maskClear w mask, none) := rfl

theorem maskSetStrict_loop (w mask : Word) : (maskSetStrictLoop mask).atomically w =
    match maskSetStrict w mask with
    | some w' => (w', some true)
    | none => (w, some false) := by
  by_cases hne : w &&& mask ≠ 0
  · simp only [CasLoop.atomically, maskSetStrictLoop, maskSetStrict, if_pos hne]
  · simp only [CasLoop.atomically, maskSetStrictLoop, maskSetStrict, if_neg hne]

/-! ## `mask_cas` alone -/

/-- One call of `mask_cas` without interference, on the word `v`; `p` says which attempts fail for no reason, and `k` is
how many more are allowed. -/
def maskCasAlone (p : List Bool) (k : Nat) (v cmp set : Word) : Option (Word × MaskRet) :=
  (maskCasLoop cmp set).alone (p ++ List.replicate k false) v (maskCasLoop cmp set).first

variable {v cmp set : Word}

/-- **The loop refines the operation**, in which only a failure of the first attempt counts. -/
theorem maskCas_alone {p : List Bool} {k : Nat} (hk : 2 ≤ k) : maskCasAlone p k v cmp set =
    some (match maskCas (p.head?.getD false) v cmp set with
      | some w => (w, some true)
      | none => (v, some false)) := by
  have hexpected : (maskCasLoop cmp set).first.expected = cmp := rfl
  rw [maskCasAlone, CasLoop.alone_eq v hk, maskCas, hexpected]
  by_cases hfirst : v = cmp ∧ p.head?.getD false = false
  · rw [if_pos hfirst, if_pos hfirst]
    rfl
  · rw [if_neg hfirst, if_neg hfirst]
    by_cases hmiss : v &&& cmp ≠ cmp
    · simp only [CasLoop.atomically, maskCasLoop, if_pos hmiss]
    · simp only [CasLoop.atomically, maskCasLoop, if_neg hmiss]

/-- What a call of `mask_cas` promises whatever attempts fail: the answer, the word it leaves when the answer is
`false`, and the bits it does not touch. -/
theorem maskCas_answers {p : List Bool} {k : Nat} (hk : 2 ≤ k) : ∃ w, maskCasAlone p k v cmp set =
    some (w, some (decide (v &&& cmp = cmp))) ∧ (v &&& cmp ≠ cmp → w = v) ∧
      ∀ i, v.getLsbD i = true → cmp.getLsbD i = false → w.getLsbD i = true := by
  rw [maskCas_alone hk, maskCas]
  by_cases hfirst : v = cmp ∧ p.head?.getD false = false
  · rw [if_pos hfirst]
    obtain ⟨rfl, -⟩ := hfirst
    refine ⟨set, by simp, fun hne => absurd BitVec.and_self hne, fun i hi hn => ?_⟩
    rw [hi] at hn
    cases hn
  · rw [if_neg hfirst]
    by_cases hmiss : v &&& cmp ≠ cmp
    · rw [if_pos hmiss]
      exact ⟨v, by simp [hmiss], fun _ => rfl, fun _ hi _ => hi⟩
    · rw [if_neg hmiss]
      refine ⟨v ||| set, by simp [not_not.mp hmiss], fun hne => absurd hne hmiss, fun i hi _ => ?_⟩
      rw [BitVec.getLsbD_or, hi, Bool.true_or]

/-- **`mask_cas` has one meaning** on the word `v`: whatever attempts fail, it answers whether `v` has all bits of
`cmp`, and leaves the same word; that is `v` if it has not, and it has all bits of `v` that are not in `cmp`. -/
def OneMeaning (v cmp set : Word) : Prop :=
  ∃ w, (∀ p k, 2 ≤ k → maskCasAlone p k v cmp set = some (w, some (decide (v &&& cmp = cmp)))) ∧
    (v &&& cmp ≠ cmp → w = v) ∧ ∀ i, v.getLsbD i = true → cmp.getLsbD i = false → w.getLsbD i = true

/-- **`mask_cas` has one meaning** exactly on the words other than `cmp`, unless `set` has all bits of `cmp`. -/
theorem oneMeaning_iff (v cmp set : Word) : OneMeaning v cmp set ↔ (v = cmp → cmp ||| set = set) := by
  constructor
  · rintro ⟨w, hw, -⟩ rfl
    -- The first attempt succeeds, or fails for no reason and is repeated.
    have hfirst := hw [] 2 le_rfl
    have hagain := hw [true] 2 le_rfl
    rw [maskCas_alone le_rfl, maskCas] at hfirst hagain
    rw [if_pos ⟨rfl, rfl⟩] at hfirst
    rw [if_neg (fun h => by cases h.2), if_neg (fun h => h BitVec.and_self)] at hagain
    have heq := hagain.trans hfirst.symm
    simp only [Option.some.injEq, Prod.mk.injEq] at heq
    exact heq.1
  · intro hsub
    have hsame : ∀ b, maskCas b v cmp set = maskCas false v cmp set := by
      intro b
      by_cases hv : v = cmp
      · subst hv
        cases b with
        | false => rfl
        | true =>
          rw [maskCas, if_neg (fun h => by cases h.2), if_neg (fun h => h BitVec.and_self), hsub rfl, maskCas,
            if_pos ⟨rfl, rfl⟩]
      · simp only [maskCas, hv, false_and, if_false]
    obtain ⟨w, hw, hmiss, hkept⟩ := maskCas_answers (v := v) (p := []) le_rfl
    refine ⟨w, fun p k hk => ?_, hmiss, hkept⟩
    rw [← hw, maskCas_alone hk, maskCas_alone le_rfl, hsame, hsame ([].head?.getD false)]

/-- **The two routes differ** where the worker takes a timer over: a first success leaves `BIT_ACTIVE` alone, a second
one leaves `BIT_SCHED` with it. -/
theorem mask_cas_routes : maskCasAlone [] 2 bitSched bitSched bitActive = some (bitActive, some true) ∧
    maskCasAlone [true] 2 bitSched bitSched bitActive = some (bitSched ||| bitActive, some true) ∧
    ¬OneMeaning bitSched bitSched bitActive := by
  refine ⟨by decide, by decide, ?_⟩
  rintro ⟨w, hw, -⟩
  have heq := (hw [] 2 le_rfl).symm.trans
    (by decide : maskCasAlone [] 2 bitSched bitSched bitActive = some (4, some true))
  have heq' := (hw [true] 2 le_rfl).symm.trans
    (by decide : maskCasAlone [true] 2 bitSched bitSched bitActive = some (12, some true))
  exact absurd (heq.symm.trans heq') (by decide)

/-! ## Many threads -/

/-- A call of `mask_set`, `mask_set_strict` or `mask_clear`. -/
inductive MaskOp
  | set (mask : Word)
  | setStrict (mask : Word)
  | clear (mask : Word)
  deriving DecidableEq

/-- The loop of a call. -/
def MaskOp.loop : MaskOp → CasLoop Word MaskRet
  | .set mask => maskSetLoop mask
  | .setStrict mask => maskSetStrictLoop mask
  | .clear mask => maskClearLoop mask

/-- **What a call is for**: `word | mask`, `word & ~mask`, or test-and-set. -/
def MaskOp.spec : MaskOp → Word → Word × MaskRet
  | .set mask, w => (w ||| mask, none)
  | .setStrict mask, w => if w &&& mask = 0 then (w ||| mask, some true) else (w, some false)
  | .clear mask, w => (w &&& ~~~mask, none)

theorem MaskOp.loop_spec (op : MaskOp) : op.loop.atomically = op.spec := by
  funext w
  cases op with
  | set mask => rfl
  | clear mask => rfl
  | setStrict mask =>
    by_cases hzero : w &&& mask = 0
    · simp only [loop, spec, CasLoop.atomically, maskSetStrictLoop, hzero, ne_eq, not_true_eq_false, if_false, if_true]
    · simp only [loop, spec, CasLoop.atomically, maskSetStrictLoop, hzero, ne_eq, not_false_eq_true, if_false, if_true]

/-- The word 0, which the loops expect first, and the word they publish then. -/
theorem MaskOp.loop_sound (op : MaskOp) : op.loop.Sound := by
  cases op with
  | set mask => simp [CasLoop.Sound, CasLoop.Good, loop, maskSetLoop]
  | clear mask => simp [CasLoop.Sound, CasLoop.Good, loop, maskClearLoop]
  | setStrict mask => simp [CasLoop.Sound, CasLoop.Good, loop, maskSetStrictLoop]

open Threads

variable {l : List (Entry MaskOp MaskRet)} {i : Nat} {w w' : Word}

/-- A test-and-set that succeeds has found its bit unset, and sets it. -/
theorem setStrict_some (hi : i < 32) (h : (MaskOp.spec (.setStrict (BitVec.twoPow 32 i)) w).2 = some true) :
    w.getLsbD i = false ∧ (MaskOp.spec (.setStrict (BitVec.twoPow 32 i)) w).1.getLsbD i = true := by
  simp only [MaskOp.spec] at h ⊢
  split at h
  · rename_i hzero
    have hbit : (w &&& BitVec.twoPow 32 i).getLsbD i = false := hzero ▸ BitVec.getLsbD_zero
    rw [BitVec.getLsbD_and, BitVec.getLsbD_twoPow] at hbit
    rw [if_pos hzero, BitVec.getLsbD_or, BitVec.getLsbD_twoPow]
    simp only [hi, decide_true, Bool.and_true] at hbit ⊢
    exact ⟨hbit, Bool.or_true _⟩
  · cases h

/-- A bit stays set in a call that does not clear it. -/
theorem bit_kept_by (op : MaskOp) (hw : w.getLsbD i = true) (hno : ∀ mask, op = .clear mask → mask.getLsbD i = false) :
    (op.spec w).1.getLsbD i = true := by
  cases op with
  | set mask => rw [MaskOp.spec, BitVec.getLsbD_or, hw, Bool.true_or]
  | setStrict mask =>
    rw [MaskOp.spec]
    split
    · rw [BitVec.getLsbD_or, hw, Bool.true_or]
    · exact hw
  | clear mask =>
    have hi : i < 32 := BitVec.lt_of_getLsbD hw
    rw [MaskOp.spec, BitVec.getLsbD_and, BitVec.getLsbD_not, hw, hno mask rfl]
    simp only [hi, decide_true, Bool.not_false, Bool.and_true]

/-- A bit stays set as long as no call clears it. -/
theorem bit_kept (hl : Legal MaskOp.spec w l w') (hw : w.getLsbD i = true)
    (hno : ∀ c ∈ l, ∀ mask, c.op = .clear mask → mask.getLsbD i = false) : w'.getLsbD i = true := by
  induction l generalizing w with
  | nil =>
    obtain rfl : w' = w := hl
    exact hw
  | cons c l ih =>
    exact ih hl.2 (bit_kept_by c.op hw (hno c List.mem_cons_self)) fun c' hc' => hno c' (List.mem_cons_of_mem _ hc')

/-- **Between two successes of `mask_set_strict` with the same bit, a call has cleared it.** -/
theorem cleared_between {w₀ : Word} (hl : Legal MaskOp.spec w₀ l w) {a b : Entry MaskOp MaskRet} (hi : i < 32)
    (ha : a.op = .setStrict (BitVec.twoPow 32 i)) (har : a.ret = some true)
    (hb : b.op = .setStrict (BitVec.twoPow 32 i)) (hbr : b.ret = some true) (hab : [a, b].Sublist l) :
    ∃ c mask, [a, c, b].Sublist l ∧ c.op = .clear mask ∧ mask.getLsbD i = true := by
  obtain ⟨r₁, r₂, rfl, har₁, hbr₂⟩ := List.cons_sublist_iff.mp hab
  obtain ⟨l₁, m₁, rfl⟩ := List.append_of_mem har₁
  obtain ⟨m₂, l₂, rfl⟩ := List.append_of_mem (List.singleton_sublist.mp hbr₂)
  -- The calls between `a` and `b`.
  have hlist : l₁ ++ a :: m₁ ++ (m₂ ++ b :: l₂) = l₁ ++ a :: ((m₁ ++ m₂) ++ b :: l₂) := by simp
  rw [hlist] at hl ⊢
  obtain ⟨wa, -, hra, hl⟩ := legal_append.mp hl
  obtain ⟨wb, hmid, hrb, -⟩ := legal_append.mp hl
  rw [ha] at hra hmid
  rw [hb] at hrb
  have hset := (setStrict_some hi (hra.trans har)).2
  have hunset := (setStrict_some hi (hrb.trans hbr)).1
  by_contra hno
  refine absurd (bit_kept hmid hset fun c hc mask hcop => ?_) (by simp [hunset])
  by_contra hbit
  refine hno ⟨c, mask, ?_, hcop, by simpa using hbit⟩
  have hcm : [c].Sublist (m₁ ++ m₂) := List.singleton_sublist.mpr hc
  have hbm : [b].Sublist (b :: l₂) := List.singleton_sublist.mpr List.mem_cons_self
  exact ((hcm.append hbm).cons_cons a).trans (List.sublist_append_right l₁ _)

/-! ## All interleavings -/

section Threads

variable {τ : Type*} [DecidableEq τ] {w₀ : Word} {x : Sys τ Word MaskOp MaskRet × List (Event MaskOp MaskRet)}

/-- **The mask operations are atomic.** In every state that any number of threads reach there is an order of the calls
that have returned or are about to, in which each of them, made at once, has its result; it agrees with the word and
with the order of calls and returns. Between two successes of `mask_set_strict` with the same bit, a call of it has
cleared the bit. -/
theorem mask_atomic (hr : (system MaskOp.loop w₀).Reach (fun _ _ => True) x) :
    ∃ l, Linearization MaskOp.spec w₀ x.2 x.1.word l ∧
      (∀ e ∈ l, .ret e.id e.ret ∈ x.2 ∨ ∃ th, x.1.place th = .ended e.id e.op e.ret) ∧
      ∀ i < 32, ∀ a b, a.op = .setStrict (BitVec.twoPow 32 i) → a.ret = some true →
        b.op = .setStrict (BitVec.twoPow 32 i) → b.ret = some true → [a, b].Sublist l →
          ∃ c mask, [a, c, b].Sublist l ∧ c.op = .clear mask ∧ mask.getLsbD i = true := by
  obtain ⟨l, hlin, hrest⟩ := linearizable MaskOp.loop_sound hr
  have hspec : (fun op => (MaskOp.loop op).atomically) = MaskOp.spec := funext MaskOp.loop_spec
  rw [hspec] at hlin
  exact ⟨l, hlin, hrest, fun i hi a b ha har hb hbr hab => cleared_between hlin.legal hi ha har hb hbr hab⟩

/-- Two threads allocate a slot in turn: the second one fails for no reason first, and finds the bit set. The first one
frees the slot, and the second one tries again. -/
theorem mask_atomic_alloc : ∃ x : Sys (Fin 2) Word MaskOp MaskRet × List (Event MaskOp MaskRet),
    ((system MaskOp.loop 0).Reach (fun _ _ => True) x ∧
      x.2 = [.call 0 (.setStrict bitAlloc), .call 1 (.setStrict bitAlloc), .ret 0 (some true), .ret 1 (some false),
        .call 2 (.clear bitAlloc), .call 3 (.setStrict bitAlloc), .ret 2 none, .ret 3 (some true)]) ∧
    ∃ l, Linearization MaskOp.spec 0 x.2 x.1.word l ∧
      (∀ e ∈ l, .ret e.id e.ret ∈ x.2 ∨ ∃ th, x.1.place th = .ended e.id e.op e.ret) ∧
      ∀ i < 32, ∀ a b, a.op = .setStrict (BitVec.twoPow 32 i) → a.ret = some true →
        b.op = .setStrict (BitVec.twoPow 32 i) → b.ret = some true → [a, b].Sublist l →
          ∃ c mask, [a, c, b].Sublist l ∧ c.op = .clear mask ∧ mask.getLsbD i = true := by
  obtain ⟨x, hr, hx⟩ := Lts.Reach.run (M := @system (Fin 2) _ _ _ _ MaskOp.loop _ 0) (P := fun _ _ => True)
    (Q := fun x => x.2 = [.call 0 (.setStrict bitAlloc), .call 1 (.setStrict bitAlloc), .ret 0 (some true),
      .ret 1 (some false), .call 2 (.clear bitAlloc), .call 3 (.setStrict bitAlloc), .ret 2 none, .ret 3 (some true)])
    (s := (⟨0, 0, fun _ => .idle⟩, [])) ⟨rfl, rfl⟩
    [.call 0 (.setStrict bitAlloc), .call 1 (.setStrict bitAlloc), .attempt 1 true, .attempt 0 false, .attempt 1 false,
      .ret 0, .ret 1, .call 0 (.clear bitAlloc), .call 1 (.setStrict bitAlloc), .attempt 0 false, .attempt 0 false,
      .attempt 1 false, .ret 0, .ret 1] (by decide)
  exact ⟨x, ⟨hr, hx⟩, mask_atomic hr⟩

end Threads

end Gabs.Timer.Posix
