import Gabs.Timer.Zephyr.Deinit

/-!
# The Zephyr timer: what becomes of a context

- `Whole.begin`, `Loops.round`, `Loops.leave`: the steps of `gabs_timer_ctx_deinit`;
- `whole_sim`: each is matched by a step of an uninstall, or by the call of the next one;
- `deinit_refines`, `deinit_done`: the function is a sequence of uninstalls, after which the context has no timer left;
- `own_deinit_blocks`: it does not return from the callback of one of these timers.
-/

namespace Gabs.Timer.Zephyr

open Gabs.Lib

variable {n m : Nat} {κ χ : Type*} [DecidableEq χ] {K : Kernel κ} {s s' : Sys n m κ χ} {r : Thread m → Option (Ret n)}

/-! ## The first step of a round -/

section Begin

variable {x : Whole n m κ χ} {th : Thread m} {l : Loop n χ} {g : Fin n → Option (Grant χ)} {ctx : χ}

/-- The loop of `th` comes to its head. -/
def Whole.begin (x : Whole n m κ χ) (th : Thread m) (ctx : χ) : Whole n m κ χ :=
  { x with loops := Function.update x.loops th (some (.first (x.sys.list ctx) ctx)) }

omit [DecidableEq χ] in
theorem first_shape (list : List (Fin n)) (ctx : χ) : (Loop.first list ctx).Shape list :=
  ⟨fun _ => ⟨rfl, peekNext_head list⟩, fun hne => absurd rfl hne⟩

omit [DecidableEq χ] in
theorem first_held {list : List (Fin n)} {t : Fin n} (h : (Loop.first list ctx).held = some t) : t ∈ list :=
  List.mem_of_head? h

omit [DecidableEq χ] in
/-- A timer in a list belongs to the context. -/
theorem Linked.owner (hlk : Linked s g) {t : Fin n} (ht : t ∈ s.list ctx) :
    s.taken t = true ∧ (s.pool t).ctx = some ctx ∧ ∀ th, (s.calls th).claims ≠ some t := by
  obtain ⟨⟨q, hq, rfl⟩, -⟩ := (hlk.listed ctx t).mp ht
  obtain ⟨htaken, hclaims⟩ := (hlk.granted t).mp (by rw [hq]; rfl)
  exact ⟨htaken, (hlk.holds t q hq).ctx, hclaims⟩

omit [DecidableEq χ] in
/-- **The head of the loop.** -/
theorem Loops.begin (hi : Loops x) (hlk : Linked (x.abs r) g) (hidle : x.sys.calls th = .idle)
    (hap : ∀ th', x.Apart (.first (x.sys.list ctx) ctx) (x.sys.calls th'))
    (hctx : ∀ th' l, x.loops th' = some l → th' ≠ th → l.ctx ≠ ctx)
    (hcb : th = .workQueue → x.sys.inCallback = true) : Loops (x.begin th ctx) := by
  have hloops : ∀ {th' : Thread m} {l : Loop n χ}, (x.begin th ctx).loops th' = some l →
      th' = th ∧ l = .first (x.sys.list ctx) ctx ∨ th' ≠ th ∧ x.loops th' = some l := fun {th' l} hl => by
    change Function.update x.loops th _ th' = some l at hl
    rw [Function.update_apply] at hl
    split at hl
    · rename_i heq
      exact .inl ⟨heq, (Option.some.inj hl).symm⟩
    · exact .inr ⟨‹_›, hl⟩
  refine ⟨fun th' l hl => ?_, fun th' l hl => ?_, fun th' l t hl ht => ?_, fun th' l hl => ?_,
    fun th' th'' l l' hl hl' hne => ?_, fun l hl => ?_⟩
  · rcases hloops hl with ⟨rfl, -⟩ | ⟨-, hl⟩
    · exact hidle
    · exact hi.idle th' l hl
  · rcases hloops hl with ⟨-, rfl⟩ | ⟨-, hl⟩
    · exact first_shape _ _
    · exact hi.shape th' l hl
  · rcases hloops hl with ⟨-, rfl⟩ | ⟨-, hl⟩
    · exact (hlk.owner (first_held ht)).2.1
    · exact hi.owner th' l t hl ht
  · rcases hloops hl with ⟨-, rfl⟩ | ⟨-, hl⟩
    · exact hap
    · exact hi.apart th' l hl
  · rcases hloops hl with ⟨h1, rfl⟩ | ⟨hn, hold⟩
    · rcases hloops hl' with ⟨h2, -⟩ | ⟨hn', hold'⟩
      · exact absurd (h1.trans h2.symm) hne
      · exact (hctx th'' l' hold' hn').symm
    · rcases hloops hl' with ⟨-, rfl⟩ | ⟨-, hold'⟩
      · exact hctx th' l hold hn
      · exact hi.ctx th' th'' l l' hold hold' hne
  · rcases hloops hl with ⟨heq, rfl⟩ | ⟨-, hl⟩
    · exact hcb heq.symm
    · exact hi.callback l hl

omit [DecidableEq χ] in
theorem Foreign.begin (hf : Foreign x) (hown : th = .workQueue → ∀ t ∈ x.sys.list ctx, x.sys.firing ≠ some t) :
    Foreign (x.begin th ctx) := by
  intro l hl t ht
  change Function.update x.loops th _ .workQueue = some l at hl
  rw [Function.update_apply] at hl
  split at hl
  · rename_i heq
    obtain rfl := Option.some.inj hl
    exact hown heq.symm t (ht.elim id first_held)
  · exact hf l hl t ht

/-- There the next uninstall begins, if there is a timer left. -/
theorem runs_begin (hi : Loops x) (hlk : Linked (x.abs r) g) (habs : (x.abs r).calls th = .idle)
    (hap : ∀ th', x.Apart (.first (x.sys.list ctx) ctx) (x.sys.calls th'))
    (hctx : ∀ th' l, x.loops th' = some l → th' ≠ th → l.ctx ≠ ctx) (hcb : th = .workQueue → x.sys.inCallback = true) :
    (system K n m χ).Runs Valid (x.abs r) ((x.begin th ctx).abs r) := by
  have hcalls : ((x.begin th ctx).abs r).calls =
      Function.update (x.abs r).calls th (Loop.first (x.sys.list ctx) ctx).call := by
    funext th'
    change (Function.update x.loops th _ th').elim _ _ = _
    rw [Function.update_apply, Function.update_apply]
    split <;> rfl
  have hbegin : (x.begin th ctx).abs r = (x.abs r).goto th (Loop.first (x.sys.list ctx) ctx).call := by
    rw [Sys.goto, ← hcalls]
    rfl
  rw [hbegin]
  cases hlist : x.sys.list ctx with
  | nil =>
    have hsame : (x.abs r).goto th (Loop.first [] ctx).call = x.abs r := by
      change { x.abs r with calls := Function.update (x.abs r).calls th .idle } = x.abs r
      rw [← habs, Function.update_eq_self]
    rw [hsame]
    exact .refl
  | cons t rest =>
    have ht : t ∈ (x.abs r).list ctx := by
      change t ∈ x.sys.list ctx
      rw [hlist]
      exact List.mem_cons_self
    obtain ⟨htaken, howner, hclaims⟩ := hlk.owner ht
    -- Nobody is in a call on the timer.
    have hout : ∀ th', ((x.abs r).calls th').timer ≠ some t := fun th' hc => by
      rcases abs_calls (r := r) (x := x) th' with ⟨l, hl, heq⟩ | ⟨-, heq⟩
      · rcases eq_or_ne th' th with rfl | hne
        · rw [habs] at hc
          cases hc
        · rw [heq, call_timer] at hc
          apply hctx th' l hl hne
          exact Option.some.inj ((hi.owner th' l t hl hc).symm.trans howner)
      · rw [heq] at hc
        exact ((hap th').1 t hc).1 ht
    have hvalid : Valid (x.abs r) (.call th (.uninstall t)) := by
      rintro t' ⟨⟩
      exact ⟨htaken, fun th' => ⟨hclaims th', fun hc => absurd (timer_of_removes hc) (hout th'),
        fun _ hc => absurd hc (hout th')⟩⟩
    exact .one hvalid (if_pos ⟨habs, hcb⟩)

end Begin

/-! ## The steps of a round -/

section Round

variable {x : Whole n m κ χ} {th : Thread m} {l l' : Loop n χ}

omit [DecidableEq χ] in
/-- A step in the body of the loop of `th`. -/
theorem Loops.round (hi : Loops x) (hl : x.loops th = some l) (hctx : l'.ctx = l.ctx)
    (hheld : ∀ t, l'.held = some t → l.held = some t) (hpool : ∀ t, (s'.pool t).ctx = (x.sys.pool t).ctx)
    (hcalls : s'.calls = x.sys.calls) (hexp : s'.expiry = x.sys.expiry)
    (hsub : ∀ t, t ∈ s'.list l.ctx → t ∈ x.sys.list l.ctx) (hlist : ∀ ctx, ctx ≠ l.ctx → s'.list ctx = x.sys.list ctx)
    (hshape : l'.Shape (s'.list l.ctx)) : Loops ⟨s', Function.update x.loops th (some l')⟩ := by
  have hloops : ∀ {th' : Thread m} {l₁ : Loop n χ}, Function.update x.loops th (some l') th' = some l₁ →
      th' = th ∧ l₁ = l' ∨ th' ≠ th ∧ x.loops th' = some l₁ ∧ l₁.ctx ≠ l.ctx := fun {th' l₁} h => by
    rw [Function.update_apply] at h
    split at h
    · rename_i heq
      exact .inl ⟨heq, (Option.some.inj h).symm⟩
    · rename_i hne
      exact .inr ⟨hne, h, hi.ctx th' th l₁ l h hl hne⟩
  refine ⟨fun th' l₁ h => ?_, fun th' l₁ h => ?_, fun th' l₁ t h ht => ?_, fun th' l₁ h th₂ => ?_,
    fun th' th₂ l₁ l₂ h h' hne => ?_, fun l₁ h => ?_⟩
  · change s'.calls th' = .idle
    rw [hcalls]
    rcases hloops h with ⟨heq, -⟩ | ⟨-, h, -⟩
    · rw [heq]
      exact hi.idle th l hl
    · exact hi.idle th' l₁ h
  · change l₁.Shape (s'.list l₁.ctx)
    rcases hloops h with ⟨-, rfl⟩ | ⟨-, h, hne⟩
    · rw [hctx]
      exact hshape
    · rw [hlist l₁.ctx hne]
      exact hi.shape th' l₁ h
  · change (s'.pool t).ctx = some l₁.ctx
    rw [hpool]
    rcases hloops h with ⟨-, rfl⟩ | ⟨-, h, -⟩
    · rw [hctx]
      exact hi.owner th l t hl (hheld t ht)
    · exact hi.owner th' l₁ t h ht
  · change (∀ t ∈ (s'.calls th₂).timer, t ∉ s'.list l₁.ctx ∧ l₁.held ≠ some t) ∧ (s'.calls th₂).installs ≠ some l₁.ctx
    rw [hcalls]
    rcases hloops h with ⟨-, rfl⟩ | ⟨-, h, hne⟩
    · obtain ⟨hout, hins⟩ := hi.apart th l hl th₂
      rw [hctx]
      exact ⟨fun t ht => ⟨fun hmem => (hout t ht).1 (hsub t hmem), fun hh => (hout t ht).2 (hheld t hh)⟩, hins⟩
    · rw [hlist l₁.ctx hne]
      exact hi.apart th' l₁ h th₂
  · rcases hloops h with ⟨h1, rfl⟩ | ⟨-, hold, hn⟩
    · rcases hloops h' with ⟨h2, -⟩ | ⟨-, -, hn⟩
      · exact absurd (h1.trans h2.symm) hne
      · rw [hctx]
        exact hn.symm
    · rcases hloops h' with ⟨-, rfl⟩ | ⟨-, hold', -⟩
      · rw [hctx]
        exact hn
      · exact hi.ctx th' th₂ l₁ l₂ hold hold' hne
  · change s'.inCallback = true
    rw [inCallback_of_expiry hexp]
    rcases hloops h with ⟨heq, -⟩ | ⟨-, h, -⟩
    · exact hi.callback l (heq ▸ hl)
    · exact hi.callback l₁ h

omit [DecidableEq χ] in
/-- The loop of `th` goes on, and so does its uninstall. -/
theorem abs_goto {r' : Thread m → Option (Ret n)} (hcalls : s'.calls = x.sys.calls) :
    Whole.abs ⟨s', Function.update x.loops th (some l')⟩ r =
      s'.reseat (Function.update (x.abs r').calls th l'.call) r := by
  change s'.reseat _ r = s'.reseat _ r
  congr 1
  funext th'
  change (Function.update x.loops th _ th').elim (s'.calls th') _ = _
  rw [hcalls, Function.update_apply, Function.update_apply]
  split <;> rfl

omit [DecidableEq χ] in
/-- The loop of `th` returns. -/
theorem Loops.leave (hi : Loops x) (hl : x.loops th = some l) :
    Loops ⟨x.sys.done th (.status 0), Function.update x.loops th none⟩ := by
  have hloops : ∀ {th' : Thread m} {l₁ : Loop n χ}, Function.update x.loops th none th' = some l₁ →
      x.loops th' = some l₁ := fun {th' l₁} h => by
    rw [Function.update_apply] at h
    split at h
    · cases h
    · exact h
  have hcalls : (x.sys.done th (.status 0)).calls = x.sys.calls := by
    change Function.update x.sys.calls th .idle = _
    rw [← hi.idle th l hl, Function.update_eq_self]
  refine ⟨fun th' l₁ h => ?_, fun th' l₁ h => hi.shape th' l₁ (hloops h),
    fun th' l₁ t h => hi.owner th' l₁ t (hloops h), fun th' l₁ h th₂ => ?_,
    fun th' th₂ l₁ l₂ h h' => hi.ctx th' th₂ l₁ l₂ (hloops h) (hloops h'),
    fun l₁ h => hi.callback l₁ (hloops h)⟩
  · change (x.sys.done th (.status 0)).calls th' = .idle
    rw [hcalls]
    exact hi.idle th' l₁ (hloops h)
  · change Whole.Apart _ l₁ ((x.sys.done th (.status 0)).calls th₂)
    rw [hcalls]
    exact hi.apart th' l₁ (hloops h) th₂

end Round

/-! ## The simulation -/

section Simulation

variable {x x' : Whole n m κ χ} {th : Thread m} {l : Loop n χ} {l' : Option (Loop n χ)} {g : Fin n → Option (Grant χ)}
  {t : Fin n}

omit [DecidableEq χ] in
/-- The last step of the function changes nothing but its result. -/
theorem abs_leave (hl : x.loops th = some l) (hinfo : l.info = none) :
    Whole.abs ⟨x.sys.done th (.status 0), Function.update x.loops th none⟩ r = x.abs r := by
  change x.sys.reseat _ r = x.sys.reseat _ r
  congr 1
  funext th'
  change (Function.update x.loops th none th').elim ((x.sys.done th (.status 0)).calls th') Loop.call = _
  rcases eq_or_ne th' th with rfl | hne
  · have hcall : l.call = .idle := by rw [Loop.call, hinfo]
    rw [Function.update_self, hl]
    exact (Function.update_self ..).trans hcall.symm
  · rw [Function.update_of_ne hne]
    congr 1
    exact Function.update_of_ne hne ..

/-- The node is taken out of the list, where it is the first. -/
theorem Loops.unlink_list (hi : Loops x) (hl : x.loops th = some l) (hinfo : l.info = some t) (hp : l.p = .remove) :
    (unlink x.sys t).list l.ctx = (x.sys.list l.ctx).tail ∧
      ∀ ctx, ctx ≠ l.ctx → (unlink x.sys t).list ctx = x.sys.list ctx := by
  have hheld : l.held = some t := by rw [Loop.held, hp, hinfo]
  have howner := hi.owner th l t hl hheld
  rw [unlink, howner]
  constructor
  · rw [Sys.setList_list, Function.update_self]
    have hhead := ((hi.shape th l hl).head hp).1
    rw [hinfo] at hhead
    cases hlist : x.sys.list l.ctx with
    | nil => rw [hlist] at hhead; cases hhead
    | cons t' rest =>
      rw [hlist] at hhead
      cases hhead
      exact List.erase_cons_head ..
  · exact fun ctx hne => Function.update_of_ne hne ..

omit [DecidableEq χ] in
/-- The loop is not in the callback of its timer, so its uninstall waits. -/
theorem not_inCallbackOf (hown : th = .workQueue → x.sys.firing ≠ some t) : (x.abs r).inCallbackOf th t = false := by
  rw [Sys.inCallbackOf, Bool.and_eq_false_iff]
  by_cases hwq : th = .workQueue
  · right
    rw [decide_eq_false_iff_not]
    exact hown hwq
  · left
    rw [decide_eq_false_iff_not]
    exact hwq

/-- A step in the body is one of the uninstall. -/
theorem runs_round {l' : Loop n χ} (r' : Thread m → Option (Ret n)) (hcalls : s'.calls = x.sys.calls)
    (h : callStep K (x.abs r) th none = some (s'.reseat (Function.update (x.abs r).calls th l'.call) r')) :
    ∃ r', (system K n m χ).Runs Valid (x.abs r) (Whole.abs ⟨s', Function.update x.loops th (some l')⟩ r') := by
  refine ⟨r', .one (a := .step th none) trivial (h.trans (congrArg some ?_))⟩
  exact (abs_goto hcalls).symm

/-- **A step of the function is at most a step of an uninstall, or the call of the next one**, but for the wait for the
handler that it is called from. -/
theorem loop_sim (hi : Loops x) (hlk : Linked (x.abs r) g) (hl : x.loops th = some l)
    (hown : ∀ t, l.info = some t → l.p = .cancel → th = .workQueue → x.sys.firing ≠ some t)
    (h : loopStep K x.sys th l = some (s', l')) :
    Loops ⟨s', Function.update x.loops th l'⟩ ∧
      ∃ r', (system K n m χ).Runs Valid (x.abs r) (Whole.abs ⟨s', Function.update x.loops th l'⟩ r') := by
  have hcall := abs_calls_of_loop (r := r) hl
  have hshape := hi.shape th l hl
  rcases l with ⟨ctx, info, nxt, p⟩
  cases info with
  | none =>
    cases h
    refine ⟨hi.leave hl, r, ?_⟩
    rw [abs_leave hl rfl]
    exact .refl
  | some t =>
    cases p with
    | remove =>
      cases h
      obtain ⟨htail, hother⟩ := hi.unlink_list hl rfl rfl
      constructor
      · refine hi.round hl rfl (fun _ ht => ht) (fun _ => by rw [unlink_pool]) (unlink_calls ..) (unlink_expiry ..)
          (fun t' ht' => ?_) hother ⟨by rintro ⟨⟩, fun _ => ⟨by simp, ?_⟩⟩
        · rw [htail] at ht'
          exact List.mem_of_mem_tail ht'
        · rw [htail]
          exact (hshape.head rfl).2
      · refine runs_round r (unlink_calls ..) ?_
        rw [callStep, hcall]
        change some ((unlink (x.abs r) t).goto th _) = _
        rw [Whole.abs, unlink_reseat]
        rfl
    | cancel =>
      cases h
      constructor
      · refine hi.round hl rfl (fun _ ht => ht) (fun t' => ?_) rfl rfl (fun _ ht => ht) (fun _ _ => rfl)
          ⟨by rintro ⟨⟩, fun _ => hshape.body (by rintro ⟨⟩)⟩
        rw [Sys.setWork_pool, Function.update_apply]
        split
        · rename_i heq
          rw [heq]
        · rfl
      · have hout := not_inCallbackOf (r := r) (hown t rfl rfl)
        refine runs_round r ?_ ?_
        · rfl
        rw [callStep, hcall]
        change uninstallStep K (x.abs r) th t .cancel = _
        rw [uninstallStep, hout, if_neg Bool.false_ne_true]
        rfl
    | wait =>
      simp only [loopStep] at h
      split at h
      · rename_i hb
        cases h
        constructor
        · exact hi.round hl rfl (fun _ ht => ht) (fun _ => rfl) rfl rfl (fun _ ht => ht) (fun _ _ => rfl)
            ⟨by rintro ⟨⟩, fun _ => hshape.body (by rintro ⟨⟩)⟩
        · have hb' : (x.abs r).busy K t = .none := hb
          refine runs_round r ?_ ?_
          · rfl
          rw [callStep, hcall]
          change uninstallStep K (x.abs r) th t .wait = _
          rw [uninstallStep, if_pos hb']
          rfl
      · cases h
    | release =>
      cases h
      constructor
      · exact hi.round hl rfl (by rintro t' ⟨⟩) (fun _ => rfl) rfl rfl (fun _ ht => ht) (fun _ _ => rfl)
          ⟨by rintro ⟨⟩, fun _ => hshape.body (by rintro ⟨⟩)⟩
      · refine runs_round (Function.update r th (some (.status 0))) ?_ ?_
        · rfl
        rw [callStep, hcall]
        rfl
    | advance =>
      cases h
      have hfirst : Loop.first (x.sys.list ctx) ctx = ⟨ctx, nxt, peekNext (x.sys.list ctx) nxt, .remove⟩ := by
        rw [Loop.first, ← (hshape.body (by rintro ⟨⟩)).2]
      rw [← hfirst]
      have hap : ∀ th', x.Apart (.first (x.sys.list ctx) ctx) (x.sys.calls th') := fun th' => by
        obtain ⟨hout, hins⟩ := hi.apart th _ hl th'
        exact ⟨fun t' ht' => ⟨(hout t' ht').1, fun hh => (hout t' ht').1 (first_held hh)⟩, hins⟩
      have hctx : ∀ th' l, x.loops th' = some l → th' ≠ th → l.ctx ≠ ctx := fun th' l' hl' hne =>
        hi.ctx th' th l' _ hl' hl hne
      have hcb : th = .workQueue → x.sys.inCallback = true := fun heq => hi.callback _ (heq ▸ hl)
      exact ⟨hi.begin hlk (hi.idle th _ hl) hap hctx hcb, r, runs_begin hi hlk hcall hap hctx hcb⟩

/-- **What a step of the loop does** to the handler, to the lists, and to the timer in its hands. -/
structure Turned (x : Whole n m κ χ) (l : Loop n χ) (s' : Sys n m κ χ) (l' : Option (Loop n χ)) : Prop where
  expiry : s'.expiry = x.sys.expiry
  others : ∀ ctx, ctx ≠ l.ctx → s'.list ctx = x.sys.list ctx
  sub : ∀ t, t ∈ s'.list l.ctx → t ∈ x.sys.list l.ctx
  kept : ∀ t, t ∈ x.sys.list l.ctx → t ∈ s'.list l.ctx ∨ ∃ l₁, l' = some l₁ ∧ l₁.info = some t ∧ l₁.p = .cancel
  next : ∀ l₁, l' = some l₁ → l₁.ctx = l.ctx ∧ ∀ t, l₁.held = some t → l.held = some t ∨ t ∈ x.sys.list l.ctx
  last : l' = none → x.sys.list l.ctx = []

theorem loopStep_turned (hi : Loops x) (hl : x.loops th = some l) (h : loopStep K x.sys th l = some (s', l')) :
    Turned x l s' l' := by
  have hshape := hi.shape th l hl
  rcases l with ⟨ctx, info, nxt, p⟩
  -- All steps but the first leave the lists alone.
  have hsame : ∀ q : Body, (Loop.mk ctx info nxt q).held = (Loop.mk ctx info nxt p).held →
      s'.expiry = x.sys.expiry → s'.list = x.sys.list → l' = some ⟨ctx, info, nxt, q⟩ →
      Turned x ⟨ctx, info, nxt, p⟩ s' l' := by
    intro q hheld hexp hlist hl'
    refine ⟨hexp, fun _ _ => by rw [hlist], fun _ ht => by rwa [hlist] at ht, fun _ ht => .inl (by rwa [hlist]),
      fun l₁ heq => ?_, fun hnone => by rw [hl'] at hnone; cases hnone⟩
    obtain rfl := Option.some.inj (hl'.symm.trans heq)
    exact ⟨rfl, fun _ ht => .inl (hheld ▸ ht)⟩
  cases info with
  | none =>
    cases h
    refine ⟨rfl, fun _ _ => rfl, fun _ ht => ht, fun _ ht => .inl ht, by rintro l₁ ⟨⟩, fun _ => ?_⟩
    have hp : p = .remove := by
      by_contra hne
      exact (hshape.body hne).1 rfl
    exact List.head?_eq_none_iff.mp (hshape.head hp).1.symm
  | some t =>
    cases p with
    | remove =>
      cases h
      obtain ⟨htail, hother⟩ := hi.unlink_list hl rfl rfl
      refine ⟨unlink_expiry .., hother, fun t' ht' => ?_, fun t' ht' => ?_, ?_, by rintro ⟨⟩⟩
      · rw [htail] at ht'
        exact List.mem_of_mem_tail ht'
      · rw [htail]
        have hhead : some t = (x.sys.list ctx).head? := (hshape.head rfl).1
        have hmem : t' ∈ x.sys.list ctx := ht'
        cases hlist : x.sys.list ctx with
        | nil =>
          rw [hlist] at hmem
          cases hmem
        | cons t₁ rest =>
          rw [hlist] at hhead hmem
          obtain rfl : t = t₁ := Option.some.inj hhead
          rcases List.mem_cons.mp hmem with rfl | hmem
          · exact .inr ⟨_, rfl, rfl, rfl⟩
          · exact .inl hmem
      · rintro l₁ ⟨⟩
        exact ⟨rfl, fun _ ht => .inl ht⟩
    | cancel =>
      cases h
      exact hsame .wait rfl rfl rfl rfl
    | wait =>
      simp only [loopStep] at h
      split at h
      · cases h
        exact hsame .release rfl rfl rfl rfl
      · cases h
    | release =>
      cases h
      refine ⟨rfl, fun _ _ => rfl, fun _ ht => ht, fun _ ht => .inl ht, ?_, by rintro ⟨⟩⟩
      rintro l₁ ⟨⟩
      exact ⟨rfl, by rintro t' ⟨⟩⟩
    | advance =>
      cases h
      refine ⟨rfl, fun _ _ => rfl, fun _ ht => ht, fun _ ht => .inl ht, ?_, by rintro ⟨⟩⟩
      rintro l₁ ⟨⟩
      refine ⟨rfl, fun t' ht' => .inr (List.mem_of_head? ?_)⟩
      rw [← (hshape.body (by rintro ⟨⟩)).2]
      exact ht'

theorem Foreign.loop_step (hf : Foreign x) (hi : Loops x) (hl : x.loops th = some l)
    (h : loopStep K x.sys th l = some (s', l')) : Foreign ⟨s', Function.update x.loops th l'⟩ := by
  have hturn := loopStep_turned hi hl h
  have hsub : ∀ ctx t, t ∈ s'.list ctx → t ∈ x.sys.list ctx := fun ctx t ht => by
    by_cases heq : ctx = l.ctx
    · subst heq
      exact hturn.sub t ht
    · rwa [hturn.others ctx heq] at ht
  intro l₁ hl₁ t ht
  change s'.firing ≠ some t
  rw [firing_of_expiry hturn.expiry]
  change Function.update x.loops th _ .workQueue = some l₁ at hl₁
  rw [Function.update_apply] at hl₁
  split at hl₁
  · rename_i heq
    obtain ⟨hctx, hh⟩ := hturn.next l₁ hl₁
    refine hf l (heq ▸ hl) t ?_
    rcases ht with ht | ht
    · exact .inl (hctx ▸ hsub _ t ht)
    · exact (hh t ht).symm
  · exact hf l₁ hl₁ t (ht.imp_left (hsub _ t))

/-- **A step of the system** is matched by one with uninstalls in place of the loops. -/
theorem whole_sim (hK : K.Lawful) (hi : Loops x) (hr : (system K n m χ).Reach Valid (x.abs r)) {a : WholeAct n m χ}
    (hv : Undisturbed x a) (hown : ∀ l t, a = .loop .workQueue → x.loops .workQueue = some l → l.info = some t →
      l.p = .cancel → x.sys.firing ≠ some t) (h : wholeStep K x a = some x') :
    Loops x' ∧ ∃ r', (system K n m χ).Runs Valid (x.abs r) (x'.abs r') := by
  obtain ⟨w, hcl⟩ := exists_clean hK hr
  obtain ⟨g, hlk⟩ := exists_linked hK hr
  cases a with
  | base a =>
    simp only [wholeStep] at h
    split at h
    · rename_i hfree
      obtain ⟨s', hs, rfl⟩ := Option.map_eq_some_iff.mp h
      obtain ⟨r', hstep⟩ := abs_base (r := r) hfree hs
      exact ⟨hi.base_step hcl hv hfree (step_move hs), r', .one (valid_abs hv) hstep⟩
    · cases h
  | deinit th ctx =>
    simp only [wholeStep] at h
    split at h
    · rename_i hidle
      obtain ⟨hidle, hfree, hcb⟩ := hidle
      cases h
      have hap : ∀ th', x.Apart (.first (x.sys.list ctx) ctx) (x.sys.calls th') := fun th' => (hv th').1
      have hctx : ∀ th' l, x.loops th' = some l → th' ≠ th → l.ctx ≠ ctx := fun th' l hl _ => (hv th').2 l hl
      have habs : (x.abs r).calls th = .idle := (abs_calls_of_free hfree).trans hidle
      exact ⟨hi.begin hlk hidle hap hctx hcb, r, runs_begin hi hlk habs hap hctx hcb⟩
    · cases h
  | loop th =>
    obtain ⟨l, hl, h⟩ := Option.bind_eq_some_iff.mp h
    obtain ⟨y, hy, rfl⟩ := Option.map_eq_some_iff.mp h
    refine loop_sim hi hlk hl (fun t hinfo hp hwq => ?_) hy
    subst hwq
    exact hown l t rfl hl hinfo hp

/-- A loop over the timers of others goes on over such timers. -/
theorem Foreign.step (hf : Foreign x) (hi : Loops x) {a : WholeAct n m χ} (hv : Closing x a)
    (h : wholeStep K x a = some x') : Foreign x' := by
  cases a with
  | base a =>
    simp only [wholeStep] at h
    split at h
    · rename_i hfree
      obtain ⟨s', hs, rfl⟩ := Option.map_eq_some_iff.mp h
      exact hf.base_step hi hfree (step_move hs)
    · cases h
  | deinit th ctx =>
    simp only [wholeStep] at h
    split at h
    · cases h
      exact hf.begin hv.2
    · cases h
  | loop th =>
    obtain ⟨l, hl, h⟩ := Option.bind_eq_some_iff.mp h
    obtain ⟨y, hy, rfl⟩ := Option.map_eq_some_iff.mp h
    exact hf.loop_step hi hl hy

omit [DecidableEq χ] in
/-- The timer that such a loop cancels is not the one whose callback runs. -/
theorem Foreign.cancels (hf : Foreign x) (l : Loop n χ) (t : Fin n) (hl : x.loops .workQueue = some l)
    (hinfo : l.info = some t) (hp : l.p = .cancel) : x.sys.firing ≠ some t :=
  hf l hl t (.inr (by rw [Loop.held, hp, hinfo]))

end Simulation

/-! ## Results -/

section Results

variable {x x' : Whole n m κ χ} {th : Thread m} {l : Loop n χ} {t : Fin n}

theorem loops_of_reach (hK : K.Lawful) (hr : (whole K n m χ).Reach Closing x) :
    Loops x ∧ Foreign x ∧ ∃ r, (system K n m χ).Reach Valid (x.abs r) := by
  have hex : ∃ s, (system K n m χ).Reach Valid s ∧ (Loops x ∧ Foreign x) ∧ ∃ r, s = x.abs r := by
    refine hr.refine (N := system K n m χ) (R := fun x s => (Loops x ∧ Foreign x) ∧ ∃ r, s = x.abs r) ?_ ?_
    · rintro x rfl
      refine ⟨boot K n m χ, rfl, ⟨⟨?_, ?_, ?_, ?_, ?_, ?_⟩, ?_⟩, fun _ => none, rfl⟩
      · rintro th l ⟨⟩
      · rintro th l ⟨⟩
      · rintro th l t ⟨⟩
      · rintro th l ⟨⟩
      · rintro th th' l l' ⟨⟩
      · rintro l ⟨⟩
      · rintro l ⟨⟩
    · rintro x a x' s hs ⟨⟨hi, hf⟩, r, rfl⟩ hv h
      obtain ⟨hi', r', hrun⟩ := whole_sim hK hi hs hv.undisturbed (fun l t _ => hf.cancels l t) h
      exact ⟨x'.abs r', hrun, ⟨hi', hf.step hi hv h⟩, r', rfl⟩
  obtain ⟨s, hs, ⟨hi, hf⟩, r, rfl⟩ := hex
  exact ⟨hi, hf, r, hs⟩

/-- **`gabs_timer_ctx_deinit` is a sequence of uninstalls**: whatever is reached with it, the pool, the lists and the
handler are as in a run in which its thread uninstalls the timers of the context one after the other. -/
theorem deinit_refines (hK : K.Lawful) (hr : (whole K n m χ).Reach Closing x) :
    ∃ s, (system K n m χ).Reach Valid s ∧ s.pool = x.sys.pool ∧ s.taken = x.sys.taken ∧ s.list = x.sys.list ∧
      s.expiry = x.sys.expiry ∧ ∀ th, s.calls th = (x.loops th).elim (x.sys.calls th) Loop.call := by
  obtain ⟨-, -, r, hs⟩ := loops_of_reach hK hr
  exact ⟨x.abs r, hs, rfl, rfl, rfl, rfl, fun _ => rfl⟩

/-- A timer is installed, and its context is deinitialized while its handler waits to come to its callback. -/
def deinitRunning : List (WholeAct 1 1 Unit) :=
  let c : Thread 1 := .client 0
  startOnce.map WholeAct.base ++ [.deinit c (), .loop c, .loop c, .base .expiry, .base .expiry, .base .expiry, .loop c]

theorem deinit_refines_run : ∃ x : Whole 1 1 Busy Unit, (whole plainKernel 1 1 Unit).Reach Closing x ∧
    (x.loops (.client 0)).map Loop.p = some .release ∧
    ∃ s, (system plainKernel 1 1 Unit).Reach Valid s ∧ s.list () = [] := by
  obtain ⟨x, hr, hp, hlist⟩ := Lts.Reach.run (M := whole plainKernel 1 1 Unit) (P := Closing)
    (Q := fun x => (x.loops (.client 0)).map Loop.p = some .release ∧ x.sys.list () = [])
    (s := ⟨boot plainKernel 1 1 Unit, fun _ => none⟩) rfl deinitRunning (by decide)
  obtain ⟨s, hs, -, -, hsl, -⟩ := deinit_refines plainKernel_lawful hr
  exact ⟨x, hr, hp, s, hs, by rw [hsl, hlist]⟩

/-- **`gabs_timer_ctx_deinit` removes every timer of the context.** A slot is released when no timeout, no work and no
handler is left of its timer; and when the function returns, the list is empty, and no slot belongs to the context but
those that an install is about to fill, or that another uninstall has taken out before. -/
theorem deinit_done (hK : K.Lawful) (hr : (whole K n m χ).Reach Closing x) (hl : x.loops th = some l) :
    (∀ t, l.p = .release → l.info = some t → Quiet K x.sys t ∧ x.sys.handles t = false ∧
      ∀ th', (x.sys.calls th').timer ≠ some t) ∧
    (l.info = none → x.sys.list l.ctx = [] ∧ ∀ t, x.sys.taken t = true → (x.sys.pool t).ctx = some l.ctx →
      ∃ th', (x.sys.calls th').claims = some t ∨ (x.sys.calls th').unlinked = some t) := by
  obtain ⟨hi, hf, r, hs⟩ := loops_of_reach hK hr
  obtain ⟨w, hcl⟩ := exists_clean hK hs
  obtain ⟨g, hlk⟩ := exists_linked hK hs
  constructor
  · intro t hp hinfo
    have hheld : l.held = some t := by rw [Loop.held, hp, hinfo]
    have hcall : (x.abs r).calls th = .uninstall t .release := by
      rw [abs_calls_of_loop hl, Loop.call, hinfo, hp]
    obtain ⟨hq, hquiet, -⟩ := hcl.released th t hcall
    refine ⟨hq, ?_, fun th' hc => ((hi.apart th l hl th').1 t hc).2 hheld⟩
    rcases hquiet with rfl | hh
    · have hcb := hi.callback l hl
      have hne := hf l hl t (.inr hheld)
      -- The handler that runs is in the callback of another timer.
      unfold Sys.inCallback at hcb
      split at hcb
      · rename_i k he
        have hfiring : x.sys.firing = some k := by rw [Sys.firing, he]
        rw [hfiring] at hne
        rw [Sys.handles, he]
        exact decide_eq_false hne
      · cases hcb
    · exact hh
  · intro hinfo
    have hp : l.p = .remove := by
      by_contra hne
      exact ((hi.shape th l hl).body hne).1 hinfo
    have hnil : x.sys.list l.ctx = [] := by
      rw [← List.head?_eq_none_iff, ← ((hi.shape th l hl).head hp).1, hinfo]
    refine ⟨hnil, fun t ht hctx => ?_⟩
    by_contra hno
    have hclaims : ∀ th', ((x.abs r).calls th').claims ≠ some t := fun th' hc => by
      rcases abs_calls (r := r) (x := x) th' with ⟨l', -, heq⟩ | ⟨-, heq⟩
      · rw [heq, call_claims] at hc
        cases hc
      · rw [heq] at hc
        exact hno ⟨th', .inl hc⟩
    obtain ⟨q, hq⟩ := Option.isSome_iff_exists.mp ((hlk.granted t).mpr ⟨ht, hclaims⟩)
    have hqctx : q.ctx = l.ctx := Option.some.inj ((hlk.holds t q hq).ctx.symm.trans hctx)
    have hmem : t ∈ (x.abs r).list l.ctx := by
      refine (hlk.listed l.ctx t).mpr ⟨⟨q, hq, hqctx⟩, fun th' hu => ?_⟩
      rcases abs_calls (r := r) (x := x) th' with ⟨l', hl', heq⟩ | ⟨-, heq⟩
      · have hheld : l'.held = some t := by
          rw [heq] at hu
          rw [← call_removes]
          exact removes_of_unlinked hu
        have hsame : l'.ctx = l.ctx := Option.some.inj ((hi.owner th' l' t hl' hheld).symm.trans hctx)
        obtain rfl : th' = th := by
          by_contra hne
          exact hi.ctx th' th l' l hl' hl hne hsame
        rw [hl] at hl'
        cases hl'
        rw [Loop.held, hp, hinfo] at hheld
        cases hheld
      · rw [heq] at hu
        exact hno ⟨th', .inr hu⟩
    have hempty : t ∈ x.sys.list l.ctx := hmem
    rw [hnil] at hempty
    cases hempty

theorem deinit_done_run : ∃ (x : Whole 1 1 Busy Unit) (l : Loop 1 Unit), (whole plainKernel 1 1 Unit).Reach Closing x ∧
    x.loops (.client 0) = some l ∧ l.info = none ∧ x.sys.list () = [] := by
  obtain ⟨x, hr, hl⟩ := Lts.Reach.run (M := whole plainKernel 1 1 Unit) (P := Closing)
    (Q := fun x => x.loops (.client 0) = some ⟨(), none, none, .remove⟩)
    (s := ⟨boot plainKernel 1 1 Unit, fun _ => none⟩) rfl
    (deinitRunning ++ [.loop (.client 0), .loop (.client 0)]) (by decide)
  exact ⟨x, _, hr, hl, rfl, ((deinit_done plainKernel_lawful hr hl).2 rfl).1⟩

/-! ## In the callback of one of the timers -/

/-- The work queue thread is in a loop only from a callback; the flags of the work items are as ever. -/
structure Within (K : Kernel κ) (x : Whole n m κ χ) : Prop where
  flags : ∀ i, Flags K x.sys i
  callback : ∀ l, x.loops .workQueue = some l → x.sys.inCallback = true

/-- The work item of another thread's timer is cancelled, or is left alone. -/
theorem loopStep_busy (hK : K.Lawful) {y : Sys n m κ χ × Option (Loop n χ)} (h : loopStep K s th l = some y) :
    y.1.expiry = s.expiry ∧ ∀ i, y.1.busy K i = s.busy K i ∨ y.1.busy K i = (s.busy K i).canceled := by
  unfold loopStep at h
  split at h
  · cases h
    exact ⟨rfl, fun _ => .inl rfl⟩
  · rename_i t hinfo
    split at h
    · cases h
      exact ⟨unlink_expiry .., fun i => .inl (by rw [Sys.busy, unlink_pool, Sys.busy])⟩
    · cases h
      refine ⟨rfl, fun i => ?_⟩
      have hb : (s.setWork t (K.cancelDelayable (s.pool t).dwork)).busy K i =
          if i = t then K.busyGet (K.cancelDelayable (s.pool t).dwork) else s.busy K i := busy_of_update rfl
      split at hb
      · rename_i heq
        right
        rw [hb, hK.cancelDelayable, heq, Sys.busy]
      · exact .inl hb
    · split at h
      · cases h
        exact ⟨rfl, fun _ => .inl rfl⟩
      · cases h
    · cases h
      exact ⟨rfl, fun _ => .inl rfl⟩
    · cases h
      exact ⟨rfl, fun _ => .inl rfl⟩

theorem flags_of_loopStep (hK : K.Lawful) {y : Sys n m κ χ × Option (Loop n χ)} (h : loopStep K s th l = some y)
    {i : Fin n} (hf : Flags K s i) : Flags K y.1 i := by
  obtain ⟨he, hbusy⟩ := loopStep_busy hK h
  obtain ⟨hrun, hcan, hfl⟩ := hf
  have hh : y.1.handles i = s.handles i := handles_of_expiry he
  rcases hbusy i with hb | hb
  · exact ⟨by rw [hb, hh, hrun], by rw [hb]; exact hcan, by rw [hb, hfl]⟩
  · refine ⟨by rw [hb, canceled_running, hh, hrun], fun hc => ?_, by rw [hb, canceled_flushing, hfl]⟩
    rw [hb, canceled_canceling, hfl, Bool.or_false, Bool.or_eq_true] at hc
    rw [hb, canceled_running]
    exact hc.elim id hcan

theorem Within.step (hi : Within K x) (hK : K.Lawful) {a : WholeAct n m χ} (h : wholeStep K x a = some x') :
    Within K x' := by
  cases a with
  | base a =>
    simp only [wholeStep] at h
    split at h
    · rename_i hfree
      obtain ⟨s', hs, rfl⟩ := Option.map_eq_some_iff.mp h
      have hm := step_move hs
      refine ⟨fun i => (hi.flags i).step hK hm, fun l hl => ?_⟩
      have hcb := hi.callback l hl
      have hn : a.thread ≠ some .workQueue := fun heq => by
        rw [hfree _ heq] at hl
        cases hl
      exact (inCallback_of_expiry (hm.expiry_waits hcb hn)).trans hcb
    · cases h
  | deinit th ctx =>
    simp only [wholeStep] at h
    split at h
    · rename_i hidle
      cases h
      refine ⟨hi.flags, fun l hl => ?_⟩
      by_cases heq : .workQueue = th
      · exact hidle.2.2 heq.symm
      · exact hi.callback l ((Function.update_of_ne heq ..).symm.trans hl)
    · cases h
  | loop th =>
    obtain ⟨l, hl, h⟩ := Option.bind_eq_some_iff.mp h
    obtain ⟨y, hy, rfl⟩ := Option.map_eq_some_iff.mp h
    refine ⟨fun i => flags_of_loopStep hK hy (hi.flags i), fun l' hl' => ?_⟩
    rw [inCallback_of_expiry (loopStep_busy hK hy).1]
    by_cases heq : .workQueue = th
    · exact hi.callback l (heq ▸ hl)
    · exact hi.callback l' ((Function.update_of_ne heq ..).symm.trans hl')

theorem within_of_reach (hK : K.Lawful) {P : Whole n m κ χ → WholeAct n m χ → Prop} (hr : (whole K n m χ).Reach P x) :
    Within K x := by
  refine hr.invariant (I := fun x => Within K x) ?_ fun x a x' _ hi _ h => hi.step hK h
  rintro x rfl
  exact ⟨(Clean.init (m := m) (χ := χ) hK).flags, by rintro l ⟨⟩⟩

/-- Where the loop waits for the handler it is called from, it stays. -/
theorem Within.wait_kept (hi : Within K x) (hK : K.Lawful) (hl : x.loops .workQueue = some l) (hp : l.p = .wait)
    (hinfo : l.info = some t) (hf : x.sys.firing = some t) {a : WholeAct n m χ} (h : wholeStep K x a = some x') :
    x'.loops .workQueue = some l ∧ x'.sys.expiry = x.sys.expiry := by
  cases a with
  | base a =>
    simp only [wholeStep] at h
    split at h
    · rename_i hfree
      obtain ⟨s', hs, rfl⟩ := Option.map_eq_some_iff.mp h
      have hn : a.thread ≠ some .workQueue := fun heq => by
        rw [hfree _ heq] at hl
        cases hl
      exact ⟨hl, (step_move hs).expiry_waits (hi.callback l hl) hn⟩
    · cases h
  | deinit th ctx =>
    simp only [wholeStep] at h
    split at h
    · rename_i hidle
      cases h
      have hne : .workQueue ≠ th := fun heq => by
        rw [heq, hidle.2.1] at hl
        cases hl
      exact ⟨(Function.update_of_ne hne ..).trans hl, rfl⟩
    · cases h
  | loop th =>
    obtain ⟨l', hl', h⟩ := Option.bind_eq_some_iff.mp h
    obtain ⟨z, hz, rfl⟩ := Option.map_eq_some_iff.mp h
    by_cases heq : .workQueue = th
    · -- Its handler runs, so the work item stays busy.
      subst heq
      obtain rfl : l = l' := Option.some.inj (hl.symm.trans hl')
      have hbusy : x.sys.busy K t ≠ .none := fun hb => by
        have hr := (hi.flags t).running
        rw [hb, handles_of_firing hf] at hr
        cases hr
      simp only [loopStep, hinfo, hp, if_neg hbusy] at hz
      cases hz
    · exact ⟨(Function.update_of_ne heq ..).trans hl, (loopStep_busy hK hz).1⟩

/-- The loop of the work queue thread over `ctx` has still to come to `t`, whose callback it is called from. -/
structure Awaits (K : Kernel κ) (ctx : χ) (t : Fin n) (x : Whole n m κ χ) : Prop where
  loops : Loops x
  reach : ∃ r, (system K n m χ).Reach Valid (x.abs r)
  comes : ∃ l, x.loops .workQueue = some l ∧ l.ctx = ctx ∧
    (t ∈ x.sys.list ctx ∨ l.info = some t ∧ l.p = .cancel)

/-- It has come there. -/
def Stuck (ctx : χ) (t : Fin n) (x : Whole n m κ χ) : Prop :=
  ∃ l, x.loops .workQueue = some l ∧ l.ctx = ctx ∧ l.p = .wait ∧ l.info = some t

/-- A step of its own. -/
theorem Awaits.own_step (ha : Awaits K ctx t x) (hK : K.Lawful) (hf : x.sys.firing = some t)
    (h : wholeStep K x (.loop .workQueue) = some x') :
    x'.sys.expiry = x.sys.expiry ∧ (Awaits K ctx t x' ∨ Stuck ctx t x') := by
  obtain ⟨hi, ⟨r, hr⟩, l, hl, rfl, hcomes⟩ := ha
  obtain ⟨l', hl', hstep⟩ := Option.bind_eq_some_iff.mp h
  obtain ⟨y, hy, rfl⟩ := Option.map_eq_some_iff.mp hstep
  obtain rfl : l = l' := Option.some.inj (hl.symm.trans hl')
  have hturn := loopStep_turned hi hl hy
  have hself : Function.update x.loops .workQueue y.2 .workQueue = y.2 := Function.update_self ..
  refine ⟨hturn.expiry, ?_⟩
  by_cases hcancel : l.info = some t ∧ l.p = .cancel
  · -- The wait for its handler begins.
    right
    obtain ⟨hinfo, hp⟩ := hcancel
    simp only [loopStep, hinfo, hp] at hy
    cases hy
    exact ⟨_, hself, rfl, rfl, rfl⟩
  · left
    have hmem : t ∈ x.sys.list l.ctx := hcomes.resolve_right hcancel
    have hown : ∀ l₁ t', (WholeAct.loop .workQueue : WholeAct n m χ) = .loop .workQueue →
        x.loops .workQueue = some l₁ → l₁.info = some t' → l₁.p = .cancel → x.sys.firing ≠ some t' :=
      fun l₁ t' _ hl₁ hinfo hp hfire => by
        obtain rfl : l = l₁ := Option.some.inj (hl.symm.trans hl₁)
        obtain rfl : t = t' := Option.some.inj (hf.symm.trans hfire)
        exact hcancel ⟨hinfo, hp⟩
    obtain ⟨hi', r', hrun⟩ := whole_sim hK hi hr (a := .loop .workQueue) trivial hown h
    refine ⟨hi', ⟨r', hr.runs hrun⟩, ?_⟩
    have hsome : y.2 ≠ none := fun hnone => by
      rw [hturn.last hnone] at hmem
      cases hmem
    obtain ⟨l₁, hl₁⟩ := Option.ne_none_iff_exists'.mp hsome
    refine ⟨l₁, hself.trans hl₁, (hturn.next l₁ hl₁).1, ?_⟩
    rcases hturn.kept t hmem with hkept | ⟨l₂, hl₂, hinfo, hp⟩
    · exact .inl hkept
    · obtain rfl : l₁ = l₂ := Option.some.inj (hl₁.symm.trans hl₂)
      exact .inr ⟨hinfo, hp⟩

/-- A step of anybody else. -/
theorem Awaits.step (ha : Awaits K ctx t x) (hK : K.Lawful) {a : WholeAct n m χ} (hv : Undisturbed x a)
    (hne : a ≠ .loop .workQueue) (h : wholeStep K x a = some x') :
    x'.sys.expiry = x.sys.expiry ∧ Awaits K ctx t x' := by
  obtain ⟨hi, ⟨r, hr⟩, l, hl, rfl, hcomes⟩ := ha
  obtain ⟨hi', r', hrun⟩ := whole_sim hK hi hr hv (fun _ _ heq => absurd heq hne) h
  have hsame : x'.loops .workQueue = some l ∧ x'.sys.expiry = x.sys.expiry ∧ x'.sys.list l.ctx = x.sys.list l.ctx := by
    cases a with
    | base a =>
      simp only [wholeStep] at h
      split at h
      · rename_i hfree
        obtain ⟨s', hs, rfl⟩ := Option.map_eq_some_iff.mp h
        have hn : a.thread ≠ some .workQueue := fun heq => by
          rw [hfree _ heq] at hl
          cases hl
        have hm := step_move hs
        exact ⟨hl, hm.expiry_waits (hi.callback l hl) hn, hi.list_kept hl hm⟩
      · cases h
    | deinit th ctx' =>
      simp only [wholeStep] at h
      split at h
      · rename_i hidle
        cases h
        have hwq : .workQueue ≠ th := fun heq => by
          rw [heq, hidle.2.1] at hl
          cases hl
        exact ⟨(Function.update_of_ne hwq ..).trans hl, rfl, rfl⟩
      · cases h
    | loop th =>
      obtain ⟨l', hl', hstep⟩ := Option.bind_eq_some_iff.mp h
      obtain ⟨y, hy, rfl⟩ := Option.map_eq_some_iff.mp hstep
      have hwq : .workQueue ≠ th := fun heq => hne (by rw [heq])
      have hturn := loopStep_turned hi hl' hy
      exact ⟨(Function.update_of_ne hwq ..).trans hl, hturn.expiry, hturn.others _ (hi.ctx _ _ l l' hl hl' hwq)⟩
  obtain ⟨hloops, hexp, hlist⟩ := hsame
  exact ⟨hexp, hi', ⟨r', hr.runs hrun⟩, l, hloops, rfl, by rwa [hlist]⟩

/-- **`gabs_timer_ctx_deinit` never returns from the callback of one of the timers.** Where it waits for the handler it
has been called from, it stays, whatever the others do. Called while that timer is in the list, and left alone, it comes
nowhere else: the work queue thread makes no step of the handler any more, so no callback of any timer begins. -/
theorem own_deinit_blocks (hK : K.Lawful) :
    (∀ (P : Whole n m κ χ → WholeAct n m χ → Prop) x x' l t, (whole K n m χ).Reach P x →
      x.loops .workQueue = some l → l.p = .wait → l.info = some t → x.sys.firing = some t →
      (whole K n m χ).Runs (fun _ _ => True) x x' →
        x'.loops .workQueue = some l ∧ x'.sys.expiry = x.sys.expiry) ∧
    ∀ x x₁ x' ctx t, (whole K n m χ).Reach Closing x → Undisturbed x (.deinit .workQueue ctx) →
      x.sys.firing = some t → t ∈ x.sys.list ctx → wholeStep K x (.deinit .workQueue ctx) = some x₁ →
      (whole K n m χ).Runs Undisturbed x₁ x' →
        (∃ l, x'.loops .workQueue = some l ∧ l.ctx = ctx) ∧ x'.sys.expiry = x.sys.expiry := by
  refine ⟨fun P x x' l t hr hl hp hinfo hf hrun => ?_, fun x x₁ x' ctx t hr hv hf ht hcall hrun => ?_⟩
  · have hend : Within K x' ∧ x'.loops .workQueue = some l ∧ x'.sys.expiry = x.sys.expiry := by
      refine hrun.kept (I := fun y => Within K y ∧ y.loops .workQueue = some l ∧ y.sys.expiry = x.sys.expiry) ?_
        ⟨within_of_reach hK hr, hl, rfl⟩
      rintro y a y' ⟨hw, hly, hexp⟩ - h
      obtain ⟨hl', hexp'⟩ := hw.wait_kept hK hly hp hinfo ((firing_of_expiry hexp).trans hf) h
      exact ⟨hw.step hK h, hl', hexp'.trans hexp⟩
    exact hend.2
  obtain ⟨hi, -, r, hs⟩ := loops_of_reach hK hr
  obtain ⟨hi₁, r₁, hrun₁⟩ := whole_sim hK hi hs hv (by rintro _ _ ⟨⟩) hcall
  have hbegin : x₁ = x.begin .workQueue ctx := by
    simp only [wholeStep] at hcall
    split at hcall
    · exact (Option.some.inj hcall).symm
    · cases hcall
  have hawaits : Awaits K ctx t x₁ := by
    have hself : x₁.loops .workQueue = some (.first (x.sys.list ctx) ctx) := by
      rw [hbegin]
      exact Function.update_self Thread.workQueue (some (Loop.first (x.sys.list ctx) ctx)) x.loops
    exact ⟨hi₁, ⟨r₁, hs.runs hrun₁⟩, _, hself, rfl, .inl (by rw [hbegin]; exact ht)⟩
  have hexp₁ : x₁.sys.expiry = x.sys.expiry := by rw [hbegin]; rfl
  have hwithin : Within K x₁ := (within_of_reach hK hr).step hK hcall
  -- The loop comes to the timer, and then waits for it.
  have hend : Within K x' ∧ x'.sys.expiry = x.sys.expiry ∧ (Awaits K ctx t x' ∨ Stuck ctx t x') := by
    refine hrun.kept (I := fun y => Within K y ∧ y.sys.expiry = x.sys.expiry ∧ (Awaits K ctx t y ∨ Stuck ctx t y)) ?_
      ⟨hwithin, hexp₁, .inl hawaits⟩
    rintro y a y' ⟨hw, hexp, hcase⟩ hv h
    have hfy : y.sys.firing = some t := (firing_of_expiry hexp).trans hf
    rcases hcase with ha | ⟨l, hl, hctx, hp, hinfo⟩
    · by_cases hloop : a = .loop .workQueue
      · subst hloop
        obtain ⟨hexp', hcase'⟩ := ha.own_step hK hfy h
        exact ⟨hw.step hK (a := .loop .workQueue) h, hexp'.trans hexp, hcase'⟩
      · obtain ⟨hexp', ha'⟩ := ha.step hK hv hloop h
        exact ⟨hw.step hK h, hexp'.trans hexp, .inl ha'⟩
    · obtain ⟨hl', hexp'⟩ := hw.wait_kept hK hl hp hinfo hfy h
      exact ⟨hw.step hK h, hexp'.trans hexp, .inr ⟨l, hl', hctx, hp, hinfo⟩⟩
  obtain ⟨-, hexp, ⟨-, -, l, hl, hctx, -⟩ | ⟨l, hl, hctx, -⟩⟩ := hend
  · exact ⟨⟨l, hl, hctx⟩, hexp⟩
  · exact ⟨⟨l, hl, hctx⟩, hexp⟩

theorem own_deinit_blocks_run : ∃ x x₁ x' : Whole 1 1 Busy Unit,
    (whole plainKernel 1 1 Unit).Reach Closing x ∧ x.sys.firing = some 0 ∧
    wholeStep plainKernel x (.deinit .workQueue ()) = some x₁ ∧
    wholeStep plainKernel x₁ (.loop .workQueue) = some x' ∧ ∃ l, x'.loops .workQueue = some l ∧ l.ctx = () := by
  obtain ⟨x, hr, hf, ht, hv, hs⟩ := Lts.Reach.run (M := whole plainKernel 1 1 Unit) (P := Closing)
    (Q := fun x => x.sys.firing = some 0 ∧ 0 ∈ x.sys.list () ∧ Undisturbed x (.deinit .workQueue ()) ∧
      ((wholeStep plainKernel x (.deinit .workQueue ())).bind
        fun x₁ => wholeStep plainKernel x₁ (.loop .workQueue)).isSome = true)
    (s := ⟨boot plainKernel 1 1 Unit, fun _ => none⟩) rfl
    (startOnce.map WholeAct.base ++ [.base .expiry]) (by decide)
  obtain ⟨x', hs⟩ := Option.isSome_iff_exists.mp hs
  obtain ⟨x₁, hs₁, hs'⟩ := Option.bind_eq_some_iff.mp hs
  exact ⟨x, x₁, x', hr, hf, hs₁, hs', ((own_deinit_blocks plainKernel_lawful).2 x x₁ x' () 0 hr hv hf ht hs₁
    (.one (a := .loop .workQueue) trivial hs')).1⟩

end Results

end Gabs.Timer.Zephyr
