import Gabs.Lib.Lts
import Mathlib.Order.WellFounded
import Mathlib.Order.Basic

/-!
# Infinite runs and fairness

- `Lts.Trace M P`: an infinite run all of whose steps satisfy `P`;
- `Trace.Fair t E A`: weak fairness: who can move from some point on moves after it;
- `Trace.eventually`: the rule of a measure. In every state some class of actions is of help: it is enabled, its actions
  decrease the measure, and no other action that is made (`Q`) increases it or makes another class the helpful one;
- `Trace.kept`: what every action that is made keeps;
- `along`, `exists_trace`: the infinite run that makes a list of actions and then does the same all over again.
-/

namespace Gabs.Lib.Lts

variable {σ α ι β : Type*}

/-- The infinite runs whose steps all satisfy `P`. -/
structure Trace (M : Lts σ α) (P : σ → α → Prop) where
  state : Nat → σ
  act : Nat → α
  init : M.init (state 0)
  ok : ∀ k, P (state k) (act k)
  step : ∀ k, M.step (state k) (act k) = some (state (k + 1))

variable {M : Lts σ α} {P : σ → α → Prop}

theorem Trace.reach (t : M.Trace P) : ∀ k, M.Reach P (t.state k)
  | 0 => .init t.init
  | k + 1 => (t.reach k).step (t.ok k) (t.step k)

/-- Who is enabled from some point on moves after it. -/
def Trace.Fair (t : M.Trace P) (enabled : σ → Prop) (moves : α → Prop) : Prop :=
  ∀ k, (∀ j, k ≤ j → enabled (t.state j)) → ∃ j, k ≤ j ∧ moves (t.act j)

/-- What every action keeps that is made from some point on. -/
theorem Trace.kept (t : M.Trace P) {I : σ → Prop} {Q : α → Prop}
    (hs : ∀ s a s', M.Reach P s → I s → P s a → Q a → M.step s a = some s' → I s') {k : Nat}
    (hq : ∀ j, k ≤ j → Q (t.act j)) (hk : I (t.state k)) {j : Nat} (hj : k ≤ j) : I (t.state j) := by
  induction j, hj using Nat.le_induction with
  | base => exact hk
  | succ j hj ih => exact hs _ _ _ (t.reach j) ih (t.ok j) (hq j hj) (t.step j)

/-- What the rule of a measure asks of a step: the measure decreases, or the same class is of help as before and has not
moved. -/
def Advances (r : β → β → Prop) (μ : σ → β) (help : σ → ι) (A : ι → α → Prop) (s : σ) (a : α) (s' : σ) : Prop :=
  r (μ s') (μ s) ∨ μ s' = μ s ∧ help s' = help s ∧ ¬A (help s) a

/-- **The rule of a measure.** -/
theorem Trace.eventually (t : M.Trace P) {E : ι → σ → Prop} {A : ι → α → Prop} {I G : σ → Prop} {Q : α → Prop}
    {r : β → β → Prop} (hr : WellFounded r) {μ : σ → β} {help : σ → ι} (hfair : ∀ i, t.Fair (E i) (A i))
    (henabled : ∀ s, M.Reach P s → I s → ¬G s → E (help s) s)
    (hstep : ∀ s a s', M.Reach P s → I s → ¬G s → P s a → Q a → M.step s a = some s' →
      G s' ∨ I s' ∧ Advances r μ help A s a s') {k : Nat} (hq : ∀ j, k ≤ j → Q (t.act j)) (hk : I (t.state k)) :
    ∃ j, k ≤ j ∧ G (t.state j) := by
  induction hμ : μ (t.state k) using hr.induction generalizing k with
  | _ b ih =>
    subst hμ
    by_contra hnever
    have hnot : ∀ j, k ≤ j → ¬G (t.state j) := fun j hj hg => hnever ⟨j, hj, hg⟩
    -- The measure stays, and with it the helpful class, which does not move.
    have hstays : ∀ d, I (t.state (k + d)) ∧ μ (t.state (k + d)) = μ (t.state k) ∧
        help (t.state (k + d)) = help (t.state k) ∧ ∀ e, e < d → ¬A (help (t.state k)) (t.act (k + e)) := by
      intro d
      induction d with
      | zero =>
        refine ⟨hk, rfl, rfl, fun e he => ?_⟩
        omega
      | succ d hd =>
        obtain ⟨hi, hm, hh, hn⟩ := hd
        have hle : k ≤ k + d := Nat.le_add_right k d
        rcases hstep _ _ _ (t.reach (k + d)) hi (hnot _ hle) (t.ok (k + d)) (hq _ hle) (t.step (k + d)) with
          hg | ⟨hi', hless | ⟨hm', hh', hn'⟩⟩
        · exact absurd hg (hnot _ (Nat.le_succ_of_le hle))
        · rw [hm] at hless
          obtain ⟨j, hj, hg⟩ := ih _ hless (fun j hj => hq j (by omega)) hi' rfl
          exact absurd hg (hnot j (by omega))
        · refine ⟨hi', hm'.trans hm, hh'.trans hh, fun e he => ?_⟩
          rcases Nat.lt_succ_iff_lt_or_eq.mp he with hlt | rfl
          · exact hn e hlt
          · rw [hh] at hn'
            exact hn'
    have hforever : ∀ j, k ≤ j → E (help (t.state k)) (t.state j) := by
      intro j hj
      obtain ⟨d, rfl⟩ := Nat.exists_eq_add_of_le hj
      obtain ⟨hi, -, hh, -⟩ := hstays d
      rw [← hh]
      exact henabled _ (t.reach (k + d)) hi (hnot _ hj)
    obtain ⟨j, hj, hmove⟩ := hfair _ k hforever
    obtain ⟨d, rfl⟩ := Nat.exists_eq_add_of_le hj
    exact (hstays (d + 1)).2.2.2 d (Nat.lt_succ_self d) hmove

/-! ## Runs that come to rest -/

/-- The states of the run that makes a list of actions, and then in each state what `b` says. -/
def along (M : Lts σ α) (b : σ → α) : σ → List α → Nat → σ
  | s, _, 0 => s
  | s, as, k + 1 => along M b ((M.step s (as.headD (b s))).getD s) as.tail k

section

variable [∀ s a, Decidable (P s a)] {b : σ → α} {J : σ → Prop}

theorem along_step (hb : ∀ x, J x → P x (b x) ∧ ∃ x', M.step x (b x) = some x' ∧ J x') {as : List α} {s s' : σ}
    (h : M.exec P s as = some s') (hj : J s') (k : Nat) :
    P (M.along b s as k) (as[k]?.getD (b (M.along b s as k))) ∧
      M.step (M.along b s as k) (as[k]?.getD (b (M.along b s as k))) = some (M.along b s as (k + 1)) := by
  induction k generalizing s s' as with
  | zero =>
    cases as with
    | nil =>
      rw [exec, Option.some.injEq] at h
      subst h
      obtain ⟨hp, x, hx, -⟩ := hb s hj
      exact ⟨hp, by simp [along, hx]⟩
    | cons a as =>
      rw [exec] at h
      split at h
      · rename_i hp
        obtain ⟨x, hx, -⟩ := Option.bind_eq_some_iff.mp h
        exact ⟨hp, by simp [along, hx]⟩
      · cases h
  | succ k ih =>
    cases as with
    | nil =>
      rw [exec, Option.some.injEq] at h
      subst h
      obtain ⟨-, x, hx, hj⟩ := hb s hj
      simp only [along, List.headD_nil, List.tail_nil, hx, Option.getD_some]
      exact ih rfl hj
    | cons a as =>
      rw [exec] at h
      split at h
      · obtain ⟨x, hx, h⟩ := Option.bind_eq_some_iff.mp h
        simp only [along, List.headD_cons, List.tail_cons, hx, Option.getD_some]
        exact ih h hj
      · cases h

theorem along_take {as : List α} {s s' : σ} (h : M.exec P s as = some s') {k : Nat} (hk : k ≤ as.length) :
    M.exec P s (as.take k) = some (M.along b s as k) := by
  induction k generalizing s as with
  | zero => rfl
  | succ k ih =>
    cases as with
    | nil => cases hk
    | cons a as =>
      rw [exec] at h
      split at h
      · rename_i hp
        obtain ⟨x, hx, h⟩ := Option.bind_eq_some_iff.mp h
        rw [List.take_succ_cons, exec, if_pos hp, hx, Option.bind_some]
        simp only [along, List.headD_cons, List.tail_cons, hx, Option.getD_some]
        exact ih h (Nat.le_of_succ_le_succ hk)
      · cases h

theorem along_end (hb : ∀ x, J x → P x (b x) ∧ ∃ x', M.step x (b x) = some x' ∧ J x') {as : List α} {s s' : σ}
    (h : M.exec P s as = some s') (hj : J s') {k : Nat} (hk : as.length ≤ k) : J (M.along b s as k) := by
  induction k generalizing s s' as with
  | zero =>
    rw [List.length_eq_zero_iff.mp (Nat.le_zero.mp hk)] at h
    rw [exec, Option.some.injEq] at h
    subst h
    exact hj
  | succ k ih =>
    cases as with
    | nil =>
      rw [exec, Option.some.injEq] at h
      subst h
      obtain ⟨-, x, hx, hj⟩ := hb s hj
      simp only [along, List.headD_nil, List.tail_nil, hx, Option.getD_some]
      exact ih rfl hj (Nat.zero_le _)
    | cons a as =>
      rw [exec] at h
      split at h
      · obtain ⟨x, hx, h⟩ := Option.bind_eq_some_iff.mp h
        simp only [along, List.headD_cons, List.tail_cons, hx, Option.getD_some]
        exact ih h hj (Nat.le_of_succ_le_succ hk)
      · cases h

/-- **A run that comes to rest** is part of an infinite run, which stays where `J` holds. -/
theorem exists_trace (hb : ∀ x, J x → P x (b x) ∧ ∃ x', M.step x (b x) = some x' ∧ J x') {as : List α} {s s' : σ}
    (h0 : M.init s) (h : M.exec P s as = some s') (hj : J s') : ∃ t : M.Trace P,
      (∀ k, k ≤ as.length → M.exec P s (as.take k) = some (t.state k)) ∧
      (∀ k, t.act k = as[k]?.getD (b (t.state k))) ∧ ∀ k, as.length ≤ k → J (t.state k) :=
  ⟨⟨M.along b s as, fun k => as[k]?.getD (b (M.along b s as k)), h0, fun k => (along_step hb h hj k).1,
    fun k => (along_step hb h hj k).2⟩, fun _ hk => along_take h hk, fun _ => rfl, fun _ hk => along_end hb h hj hk⟩

omit [∀ s a, Decidable (P s a)] in
/-- What the actions of such a run satisfy: those of the list from `k` on, and those after it. -/
theorem Trace.forall_act (t : M.Trace P) (b : σ → α) {as : List α} (hact : ∀ k, t.act k = as[k]?.getD (b (t.state k)))
    {Q : α → Prop} {k : Nat} (hlist : ∀ a ∈ as.drop k, Q a) (hrest : ∀ j, as.length ≤ j → Q (b (t.state j))) {j : Nat}
    (hj : k ≤ j) : Q (t.act j) := by
  rw [hact]
  rcases Nat.lt_or_ge j as.length with hlt | hge
  · rw [List.getElem?_eq_getElem hlt, Option.getD_some]
    apply hlist
    rw [List.mem_drop_iff_getElem]
    exact ⟨j - k, by omega, by congr 1; omega⟩
  · rw [List.getElem?_eq_none hge, Option.getD_none]
    exact hrest j hge

end

/-- A run is fair to whom it leaves nothing to do from some point on. -/
theorem Trace.fair_of_rest (t : M.Trace P) {l : Nat} {J E : σ → Prop} {A : α → Prop}
    (hj : ∀ k, l ≤ k → J (t.state k)) (hE : ∀ x, J x → ¬E x) : t.Fair E A := by
  intro k hall
  exact absurd (hall (max k l) (Nat.le_max_left ..)) (hE _ (hj _ (Nat.le_max_right ..)))

end Gabs.Lib.Lts
