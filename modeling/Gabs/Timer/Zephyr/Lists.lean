import Gabs.Timer.Zephyr.Counts

/-!
# The Zephyr timer: the lists of the contexts

- `Grant`: a history: what the install has been called with that has returned a timer, until the timer is released;
- `Linked`: the list of a context holds the timers granted for it, each once, but those an uninstall has taken out;
- `listed_iff`: so it is in every state reached, and every callback is called as its install has been told.
-/

namespace Gabs.Timer.Zephyr

open Gabs.Lib

variable {n m : Nat} {κ χ : Type*} {K : Kernel κ} {s s' : Sys n m κ χ} {i : Fin n} {a : Act n m χ}

/-! ## The history -/

/-- What an install has been called with. -/
structure Grant (χ : Type*) where
  ctx : χ
  callback : Option Nat
  userData : Nat
  deriving DecidableEq

/-- The timer is as its install has been told. -/
structure Info.Holds (x : Info κ χ) (q : Grant χ) : Prop where
  callback : x.callback = q.callback
  userData : x.userData = q.userData
  ctx : x.ctx = some q.ctx

/-- The history after one more step. -/
def Grant.record (s : Sys n m κ χ) (a : Act n m χ) (_ : Sys n m κ χ) (g : Fin n → Option (Grant χ)) :
    Fin n → Option (Grant χ) :=
  match a with
  | .step th _ => match s.calls th with
    | .install ctx cb userData (.append t) => Function.update g t (some ⟨ctx, cb, userData⟩)
    | .uninstall t .release => Function.update g t none
    | _ => g
  | _ => g

/-- The system with this history. -/
def grants (K : Kernel κ) (n m : Nat) (χ : Type*) [DecidableEq χ] :
    Lts (Sys n m κ χ × (Fin n → Option (Grant χ))) (Act n m χ) :=
  (system K n m χ).record (fun _ => none) Grant.record

/-! ## Positions -/

/-- The timer an uninstall has taken out of its list. -/
def Call.unlinked : Call n χ → Option (Fin n)
  | .uninstall t .cancel | .uninstall t .wait | .uninstall t .release => some t
  | _ => none

/-- What an install is about to append, and what it has written there. -/
def Call.fills : Call n χ → Option (Fin n × Grant χ)
  | .install ctx cb userData (.append i) => some (i, ⟨ctx, cb, userData⟩)
  | _ => none

theorem removes_of_unlinked {c : Call n χ} {t : Fin n} (h : c.unlinked = some t) : c.removes = some t := by
  unfold Call.unlinked at h
  split at h <;> cases h <;> rfl

theorem claims_of_fills {c : Call n χ} {q : Grant χ} (h : c.fills = some (i, q)) : c.claims = some i := by
  unfold Call.fills at h
  split at h <;> cases h
  rfl

/-- Two calls have the same timers in their hands. -/
structure Call.Like (c c' : Call n χ) : Prop where
  claims : c.claims = c'.claims
  unlinked : c.unlinked = c'.unlinked
  fills : c.fills = c'.fills

theorem Call.Like.refl (c : Call n χ) : c.Like c := ⟨rfl, rfl, rfl⟩

/-- A function is entered with nothing in its hands. -/
theorem first_like (op : Op n χ) : op.first.Like .idle := by cases op <;> exact ⟨rfl, rfl, rfl⟩

theorem like_of_update {th : Thread m} {c : Call n χ} (hs : s'.calls = Function.update s.calls th c)
    (hc : c.Like (s.calls th)) (th' : Thread m) : (s'.calls th').Like (s.calls th') := by
  rw [hs]
  rcases eq_or_ne th' th with rfl | hne
  · rw [Function.update_self]
    exact hc
  · rw [Function.update_of_ne hne]
    exact .refl _

/-! ## The invariant -/

variable {g : Fin n → Option (Grant χ)}

/-- **The lists of the contexts** hold the timers that are granted, each once, but those an uninstall has taken out. -/
structure Linked (s : Sys n m κ χ) (g : Fin n → Option (Grant χ)) : Prop where
  nodup : ∀ ctx, (s.list ctx).Nodup
  listed : ∀ ctx t, t ∈ s.list ctx ↔ (∃ q, g t = some q ∧ q.ctx = ctx) ∧ ∀ th, (s.calls th).unlinked ≠ some t
  granted : ∀ t, (g t).isSome = true ↔ s.taken t = true ∧ ∀ th, (s.calls th).claims ≠ some t
  holds : ∀ t q, g t = some q → (s.pool t).Holds q
  filled : ∀ th i q, (s.calls th).fills = some (i, q) → (s.pool i).Holds q

/-- A step that leaves the lists and the slots alone. -/
theorem Linked.keep (hi : Linked s g) (hlist : s'.list = s.list) (htaken : s'.taken = s.taken)
    (hpool : ∀ t q, (s.pool t).Holds q → (s'.pool t).Holds q) (hcalls : ∀ th, (s'.calls th).Like (s.calls th)) :
    Linked s' g where
  nodup := by rw [hlist]; exact hi.nodup
  listed ctx t := by
    rw [hlist, hi.listed]
    apply and_congr_right
    intro _
    exact forall_congr' fun th => by rw [(hcalls th).unlinked]
  granted t := by
    rw [htaken, hi.granted]
    apply and_congr_right
    intro _
    exact forall_congr' fun th => by rw [(hcalls th).claims]
  holds t q hq := hpool t q (hi.holds t q hq)
  filled th i q hq := by
    rw [(hcalls th).fills] at hq
    exact hpool i q (hi.filled th i q hq)

/-- A step on the work item of a slot. -/
theorem holds_setWork {k t : Fin n} {w : κ} {q : Grant χ} (h : (s.pool t).Holds q) :
    ((s.setWork k w).pool t).Holds q := by
  rw [Sys.setWork_pool, Function.update_apply]
  split
  · rename_i heq
    subst heq
    exact ⟨h.callback, h.userData, h.ctx⟩
  · exact h

/-- A slot that an install has reserved is not granted. -/
theorem Linked.free (hi : Linked s g) {th : Thread m} (hc : (s.calls th).claims = some i) : g i = none := by
  by_contra hne
  exact ((hi.granted i).mp (Option.isSome_iff_ne_none.mpr hne)).2 th hc

/-! ## The steps on the slots -/

variable {th : Thread m}

/-- A thread goes on, and has the same to do with timer `i` as before. -/
theorem forall_goto {c : Call n χ} (hs : s'.calls = Function.update s.calls th c) (f : Call n χ → Option (Fin n))
    (hf : f c = some i ↔ f (s.calls th) = some i) :
    (∀ th', f (s'.calls th') ≠ some i) ↔ ∀ th', f (s.calls th') ≠ some i := by
  apply forall_congr'
  intro th'
  rw [hs, Function.update_apply]
  split
  · rename_i heq
    rw [heq]
    exact not_congr hf
  · exact Iff.rfl

theorem Linked.reserve_step (hi : Linked s g) {ctx : χ} {cb : Option Nat} {arg : Nat}
    (hc : s.calls th = .install ctx cb arg .reserve) (ht : s.taken i = false) :
    Linked ((s.setTaken i true).goto th (.install ctx cb arg (.fill i))) g := by
  have hnone : g i = none := by
    by_contra hne
    rw [((hi.granted i).mp (Option.isSome_iff_ne_none.mpr hne)).1] at ht
    cases ht
  refine ⟨hi.nodup, fun ctx' t => ?_, fun t => ?_, hi.holds, fun th' k q hq => ?_⟩
  · rw [forall_goto (s := s) rfl Call.unlinked (by rw [hc]; exact Iff.rfl)]
    exact hi.listed ctx' t
  · rcases eq_or_ne t i with rfl | hne
    · rw [hnone]
      refine iff_of_false (by simp) fun h => h.2 th ?_
      rw [Sys.goto_calls, Function.update_self]
      rfl
    · have hother : (Call.install ctx cb arg (.fill i)).claims = some t ↔ (s.calls th).claims = some t := by
        rw [hc]
        exact iff_of_false (fun h => hne (Option.some.inj h).symm) (by rintro ⟨⟩)
      rw [forall_goto (s := s) rfl Call.claims hother, Sys.goto_taken, Sys.setTaken_taken, Function.update_of_ne hne]
      exact hi.granted t
  · rw [Sys.goto_calls, Function.update_apply] at hq
    split at hq
    · cases hq
    · exact hi.filled th' k q hq

theorem Linked.fill_step (hi : Linked s g) {ctx : χ} {cb : Option Nat} {arg : Nat}
    (hc : s.calls th = .install ctx cb arg (.fill i)) (hown : ∀ th', th' ≠ th → (s.calls th').claims ≠ some i) :
    Linked ((s.setInfo i cb arg ctx).goto th (.install ctx cb arg (.append i))) g := by
  have hclaims : (s.calls th).claims = some i := by rw [hc]; rfl
  have hpool : ∀ t, t ≠ i → ((s.setInfo i cb arg ctx).goto th (.install ctx cb arg (.append i))).pool t = s.pool t :=
    fun t hne => Function.update_of_ne hne ..
  refine ⟨hi.nodup, fun ctx' t => ?_, fun t => ?_, fun t q hq => ?_, fun th' k q hq => ?_⟩
  · rw [forall_goto (s := s) rfl Call.unlinked (by rw [hc]; exact Iff.rfl)]
    exact hi.listed ctx' t
  · rw [forall_goto (s := s) rfl Call.claims (by rw [hc]; exact Iff.rfl)]
    exact hi.granted t
  · have hne : t ≠ i := by
      rintro rfl
      rw [hi.free hclaims] at hq
      cases hq
    rw [hpool t hne]
    exact hi.holds t q hq
  · rw [Sys.goto_calls, Function.update_apply] at hq
    split at hq
    · cases hq
      rw [Sys.goto_pool, Sys.setInfo_pool, Function.update_self]
      exact ⟨rfl, rfl, rfl⟩
    · rename_i hne
      have hother : k ≠ i := by
        rintro rfl
        exact hown th' hne (claims_of_fills hq)
      rw [hpool k hother]
      exact hi.filled th' k q hq

variable [DecidableEq χ]

theorem Linked.append_step (hi : Linked s g) {ctx : χ} {cb : Option Nat} {arg : Nat}
    (hc : s.calls th = .install ctx cb arg (.append i)) (ht : s.taken i = true)
    (hown : ∀ th', (th' ≠ th → (s.calls th').claims ≠ some i) ∧ (s.calls th').timer ≠ some i) :
    Linked ((s.setList ctx (s.list ctx ++ [i])).done th (.timer (some i)))
    (Function.update g i (some ⟨ctx, cb, arg⟩)) := by
  have hclaims : (s.calls th).claims = some i := by rw [hc]; rfl
  have hnone : g i = none := hi.free hclaims
  have hnew : ∀ ctx', i ∉ s.list ctx' := fun ctx' hmem => by
    obtain ⟨⟨q, hq, -⟩, -⟩ := (hi.listed ctx' i).mp hmem
    rw [hnone] at hq
    cases hq
  have hunl : ∀ th', (s.calls th').unlinked ≠ some i := fun th' hu =>
    (hown th').2 (timer_of_removes (removes_of_unlinked hu))
  constructor
  · intro ctx'
    rw [Sys.done_list, Sys.setList_list, Function.update_apply]
    split
    · exact (hi.nodup ctx).append (List.nodup_singleton i) (by simpa using hnew ctx)
    · exact hi.nodup ctx'
  · intro ctx' t
    rw [forall_goto (s := s) rfl Call.unlinked (by rw [hc]; exact Iff.rfl), Sys.done_list, Sys.setList_list,
      Function.update_apply]
    rcases eq_or_ne t i with rfl | hne
    · rw [Function.update_self]
      split
      · rename_i heq
        exact iff_of_true (by simp) ⟨⟨_, rfl, heq.symm⟩, hunl⟩
      · rename_i hne
        refine iff_of_false (hnew ctx') fun h => ?_
        obtain ⟨⟨q, hq, rfl⟩, -⟩ := h
        cases hq
        exact hne rfl
    · rw [Function.update_of_ne hne, ← hi.listed]
      split
      · rename_i heq
        rw [List.mem_append, List.mem_singleton, heq]
        exact or_iff_left hne
      · exact Iff.rfl
  · intro t
    rw [Sys.done_taken, Sys.setList_taken]
    rcases eq_or_ne t i with rfl | hne
    · rw [Function.update_self]
      refine iff_of_true rfl ⟨ht, fun th' hcl => ?_⟩
      rw [Sys.done_calls, Function.update_apply] at hcl
      split at hcl
      · cases hcl
      · rename_i hth
        exact (hown th').1 hth hcl
    · have hother : (Call.idle : Call n χ).claims = some t ↔ (s.calls th).claims = some t := by
        rw [hclaims]
        exact iff_of_false (by rintro ⟨⟩) fun h => hne (Option.some.inj h).symm
      rw [Function.update_of_ne hne]
      exact (hi.granted t).trans (and_congr_right fun _ => (forall_goto rfl Call.claims hother).symm)
  · intro t q hq
    rw [Function.update_apply] at hq
    split at hq
    · rename_i heq
      cases hq
      rw [heq]
      exact hi.filled th i _ (by rw [hc]; rfl)
    · exact hi.holds t q hq
  · intro th' k q hq
    rw [Sys.done_calls, Function.update_apply] at hq
    split at hq
    · cases hq
    · exact hi.filled th' k q hq

/-- The timer is found in the list of its context, and nowhere else. -/
theorem Linked.unlink_list (hi : Linked s g) {q : Grant χ} (hq : g i = some q) (ctx : χ) :
    (unlink s i).list ctx = (s.list ctx).erase i := by
  have hctx := (hi.holds i q hq).ctx
  rw [unlink, hctx, Sys.setList_list, Function.update_apply]
  split
  · rename_i heq
    rw [heq]
  · rename_i hne
    refine (List.erase_of_not_mem fun hmem => ?_).symm
    obtain ⟨⟨q', hq', rfl⟩, -⟩ := (hi.listed ctx i).mp hmem
    rw [hq] at hq'
    cases hq'
    exact hne rfl

theorem Linked.remove_step (hi : Linked s g) (hc : s.calls th = .uninstall i .remove) (ht : s.taken i = true)
    (hown : ∀ th', (s.calls th').claims ≠ some i) : Linked ((unlink s i).goto th (.uninstall i .cancel)) g := by
  obtain ⟨q, hq⟩ := Option.isSome_iff_exists.mp ((hi.granted i).mpr ⟨ht, hown⟩)
  have hcalls : ((unlink s i).goto th (.uninstall i .cancel)).calls =
      Function.update s.calls th (.uninstall i .cancel) := by
    change Function.update (unlink s i).calls th _ = _
    rw [unlink_calls]
  have hpool : ((unlink s i).goto th (.uninstall i .cancel)).pool = s.pool := unlink_pool ..
  constructor
  · intro ctx
    rw [Sys.goto_list, hi.unlink_list hq]
    exact (hi.nodup ctx).erase i
  · intro ctx t
    rw [Sys.goto_list, hi.unlink_list hq, (hi.nodup ctx).mem_erase_iff, hi.listed]
    rcases eq_or_ne t i with rfl | hne
    · refine iff_of_false (fun h => h.1 rfl) fun h => h.2 th ?_
      rw [hcalls, Function.update_self]
      rfl
    · have hother : (Call.uninstall i .cancel : Call n χ).unlinked = some t ↔ (s.calls th).unlinked = some t := by
        rw [hc]
        exact iff_of_false (fun h => hne (Option.some.inj h).symm) (by rintro ⟨⟩)
      rw [forall_goto hcalls Call.unlinked hother]
      exact and_iff_right hne
  · intro t
    rw [Sys.goto_taken, unlink_taken, hi.granted, forall_goto hcalls Call.claims (by rw [hc]; exact Iff.rfl)]
  · intro t q' hq'
    rw [hpool]
    exact hi.holds t q' hq'
  · intro th' k q' hq'
    rw [hcalls, Function.update_apply] at hq'
    rw [hpool]
    split at hq'
    · cases hq'
    · exact hi.filled th' k q' hq'

omit [DecidableEq χ] in
theorem Linked.release_step (hi : Linked s g) (hc : s.calls th = .uninstall i .release) :
    Linked ((s.setTaken i false).done th (.status 0)) (Function.update g i none) := by
  refine ⟨hi.nodup, fun ctx t => ?_, fun t => ?_, fun t q hq => ?_, fun th' k q hq => ?_⟩
  · rw [Sys.done_list, Sys.setTaken_list, hi.listed]
    rcases eq_or_ne t i with rfl | hne
    · rw [Function.update_self]
      refine iff_of_false (fun h => h.2 th (by rw [hc]; rfl)) fun h => ?_
      obtain ⟨⟨q, hq, -⟩, -⟩ := h
      cases hq
    · have hother : (Call.idle : Call n χ).unlinked = some t ↔ (s.calls th).unlinked = some t := by
        rw [hc]
        exact iff_of_false (by rintro ⟨⟩) fun h => hne (Option.some.inj h).symm
      rw [Function.update_of_ne hne]
      exact and_congr_right fun _ => (forall_goto rfl Call.unlinked hother).symm
  · rw [Sys.done_taken, Sys.setTaken_taken, Function.update_apply, Function.update_apply]
    split
    · exact iff_of_false (by simp) fun h => by cases h.1
    · have hsame : (Call.idle : Call n χ).claims = some t ↔ (s.calls th).claims = some t := by
        rw [hc]
        exact Iff.rfl
      exact (hi.granted t).trans (and_congr_right fun _ => (forall_goto rfl Call.claims hsame).symm)
  · rw [Function.update_apply] at hq
    split at hq
    · cases hq
    · exact hi.holds t q hq
  · rw [Sys.done_calls, Function.update_apply] at hq
    split at hq
    · cases hq
    · exact hi.filled th' k q hq

variable {w : Newly n}

/-- **One step.** -/
theorem Linked.step (hi : Linked s g) (hcl : Clean K s w) (h : Move K s a s') :
    Linked s' (Grant.record s a s' g) := by
  have hgoto : ∀ {th : Thread m} {c : Call n χ} {s'' : Sys n m κ χ}, s''.calls = Function.update s.calls th c →
      c.Like (s.calls th) → ∀ th', (s''.calls th').Like (s.calls th') := fun hs hc => like_of_update hs hc
  cases h with
  | @enter th op hidle =>
    exact hi.keep rfl rfl (fun _ _ hq => hq) (hgoto rfl (by rw [hidle]; exact first_like op))
  | elapse | run | finish => exact hi.keep rfl rfl (fun _ _ hq => holds_setWork hq) fun _ => .refl _
  | handle => exact hi.keep rfl rfl (fun _ _ hq => hq) fun _ => .refl _
  | goto hm =>
    cases hm with
    | wait hc | pass hc =>
      simp only [Grant.record, hc]
      exact hi.keep rfl rfl (fun _ _ hq => hq) (hgoto rfl (by rw [hc]; exact ⟨rfl, rfl, rfl⟩))
  | done hd =>
    cases hd with
    | full hc | busy hc | active hc =>
      simp only [Grant.record, hc]
      exact hi.keep rfl rfl (fun _ _ hq => hq) (hgoto rfl (by rw [hc]; exact ⟨rfl, rfl, rfl⟩))
  | cancelOwn hc | cancelSync hc | arm hc | stop hc =>
    simp only [Grant.record, hc]
    exact hi.keep rfl rfl (fun _ _ hq => holds_setWork hq) (hgoto rfl (by rw [hc]; exact ⟨rfl, rfl, rfl⟩))
  | reserve hc ht =>
    simp only [Grant.record, hc]
    exact hi.reserve_step hc ht
  | @fill th idx ctx cb arg k hc =>
    simp only [Grant.record, hc]
    have hclaims : (s.calls th).claims = some k := by rw [hc]; rfl
    exact hi.fill_step hc fun th' => ((hcl.claims th k hclaims).2 th').1
  | @append th idx ctx cb arg k hc =>
    simp only [Grant.record, hc]
    have hclaims : (s.calls th).claims = some k := by rw [hc]; rfl
    exact hi.append_step hc (hcl.claims th k hclaims).1 (hcl.claims th k hclaims).2
  | @remove th idx t hc =>
    simp only [Grant.record, hc]
    have htimer : (s.calls th).timer = some t := by rw [hc]; rfl
    exact hi.remove_step hc (hcl.timer th t htimer) fun th' hc' => ((hcl.claims th' t hc').2 th).2 htimer
  | release hc =>
    simp only [Grant.record, hc]
    exact hi.release_step hc

omit [DecidableEq χ] in
theorem Linked.init : Linked (boot K n m χ) fun _ => none := by
  refine ⟨fun _ => List.nodup_nil, fun ctx t => ?_, fun t => ?_, fun t q hq => ?_, fun th i q hq => ?_⟩
  · exact iff_of_false List.not_mem_nil fun h => by obtain ⟨⟨q, hq, -⟩, -⟩ := h; cases hq
  · exact iff_of_false (by simp) fun h => by cases h.1
  · cases hq
  · cases hq

theorem linked_of_reach (hK : K.Lawful) {x : Sys n m κ χ × (Fin n → Option (Grant χ))}
    (hr : (grants K n m χ).Reach (fun x a => Valid x.1 a) x) : Linked x.1 x.2 := by
  refine hr.record_invariant (I := fun s g => Linked s g) ?_ fun s a s' g hr hi _ h => ?_
  · rintro s rfl
    exact .init
  · obtain ⟨w, hcl⟩ := exists_clean hK (Lts.Reach.fst hr)
    exact hi.step hcl (step_move h)

/-- The lists of a state that is reached are linked. -/
theorem exists_linked (hK : K.Lawful) (hr : (system K n m χ).Reach Valid s) : ∃ g, Linked s g := by
  have hex : ∃ g, (grants K n m χ).Reach (fun x a => Valid x.1 a) (s, g) := Lts.Reach.exists_record hr
  obtain ⟨g, hg⟩ := hex
  exact ⟨g, linked_of_reach hK hg⟩

/-! ## Results -/

/-- **The lists of the contexts**: they hold the timers that installs have returned for them and no uninstall has taken
out, each once; an uninstall finds its timer there; and a callback begins as the install of its timer has been told. -/
theorem listed_iff (hK : K.Lawful) (hD : K.Delays) {x : Sys n m κ χ × (Fin n → Option (Grant χ))}
    (hr : (grants K n m χ).Reach (fun x a => Valid x.1 a) x) :
    (∀ ctx, (x.1.list ctx).Nodup) ∧
    (∀ ctx t, t ∈ x.1.list ctx ↔ (∃ q, x.2 t = some q ∧ q.ctx = ctx) ∧ ∀ th, (x.1.calls th).unlinked ≠ some t) ∧
    (∀ th t, x.1.calls th = .uninstall t .remove → ∃ ctx, (x.1.pool t).ctx = some ctx ∧ t ∈ x.1.list ctx) ∧
    ∀ t s', x.1.expiry = some (t, .test) → step K x.1 .expiry = some s' → s'.expiry = some (t, .callback) →
      ∃ q, x.2 t = some q ∧ (s'.pool t).Holds q := by
  have hi := linked_of_reach hK hr
  have hbase := Lts.Reach.fst hr
  obtain ⟨w, hcl⟩ := exists_clean hK hbase
  refine ⟨hi.nodup, hi.listed, fun th t hc => ?_, fun t s' he h hcb => ?_⟩
  · have htimer : (x.1.calls th).timer = some t := by rw [hc]; rfl
    have hown : ∀ th', (x.1.calls th').claims ≠ some t := fun th' hc' => ((hcl.claims th' t hc').2 th).2 htimer
    obtain ⟨q, hq⟩ := Option.isSome_iff_exists.mp ((hi.granted t).mpr ⟨hcl.timer th t htimer, hown⟩)
    refine ⟨q.ctx, (hi.holds t q hq).ctx, (hi.listed q.ctx t).mpr ⟨⟨q, hq, rfl⟩, fun th' hu => ?_⟩⟩
    rcases eq_or_ne th' th with rfl | hne
    · rw [hc] at hu
      cases hu
    · have hr' := removes_of_unlinked hu
      exact (hcl.removes th t (by rw [hc]; rfl) th' hne (timer_of_removes hr')).1 hr'
  · have hex : ∃ c, (counts K n m χ).Reach (fun x a => Valid x.1 a) (x.1, c) := Lts.Reach.exists_record hbase
    obtain ⟨c, hc⟩ := hex
    obtain ⟨-, ht, hown⟩ := (counted_of_reach hK hD hc).begins he h hcb
    obtain ⟨q, hq⟩ := Option.isSome_iff_exists.mp ((hi.granted t).mpr ⟨ht, hown⟩)
    refine ⟨q, hq, ?_⟩
    rw [test_step he h]
    exact hi.holds t q hq

theorem listed_iff_run : ∃ x : Sys 1 1 Busy Unit × (Fin 1 → Option (Grant Unit)),
    (grants plainKernel 1 1 Unit).Reach (fun x a => Valid x.1 a) x ∧ 0 ∈ x.1.list () := by
  obtain ⟨x, hr, hq, hu⟩ := Lts.Reach.run (M := grants plainKernel 1 1 Unit) (P := fun x a => Valid x.1 a)
    (Q := fun x => x.2 0 = some ⟨(), some 7, 0⟩ ∧ ∀ th, (x.1.calls th).unlinked ≠ some 0)
    (s := (boot plainKernel 1 1 Unit, fun _ => none)) ⟨rfl, rfl⟩ startOnce (by decide)
  exact ⟨x, hr, ((listed_iff plainKernel_lawful plainKernel_delays hr).2.1 () 0).mpr ⟨⟨_, hq, rfl⟩, hu⟩⟩

end Gabs.Timer.Zephyr
