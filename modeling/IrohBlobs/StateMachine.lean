import Mathlib.Tactic

/-!
# State machines

A state machine is a partial step function on states and actions; an action that is not enabled has no successor.  The
rule `inv_of_run` carries an invariant through a whole run, also when a step preserves it only under a condition on the
state before the step.
-/

namespace StateMachine

variable {σ α : Type} (step : σ → α → Option σ)

/-- The state after a list of actions, if all of them are enabled. -/
def run : σ → List α → Option σ
  | s, [] => some s
  | s, a :: as => (step s a).bind (fun s' => run s' as)

/-- Every action of the run meets a condition in the state before it. -/
def RunMeets (ok : σ → α → Prop) : σ → List α → Prop
  | _, [] => True
  | s, a :: as => ok s a ∧ ∀ s', step s a = some s' → RunMeets ok s' as

theorem run_of_step {step : σ → α → Option σ} {s s' : σ} {a : α} (h : step s a = some s') (as : List α) :
    run step s (a :: as) = run step s' as := by
  rw [run, h, Option.bind_some]

theorem run_cons {s s'' : σ} {a : α} {as : List α} (h : run step s (a :: as) = some s'') :
    ∃ s', step s a = some s' ∧ run step s' as = some s'' := by
  rw [run, Option.bind_eq_some_iff] at h
  exact h

/-- An invariant that every step under the condition preserves holds after every run that meets the condition. -/
theorem inv_of_run {inv : σ → Prop} {ok : σ → α → Prop}
    (hstep : ∀ {s a s'}, inv s → ok s a → step s a = some s' → inv s') {s s' : σ} {as : List α} (hs : inv s)
    (hok : RunMeets step ok s as) (hrun : run step s as = some s') : inv s' := by
  induction as generalizing s with
  | nil =>
    cases hrun
    exact hs
  | cons a as ih =>
    obtain ⟨t, ht, hrun⟩ := run_cons step hrun
    exact ih (hstep hs hok.1 ht) (hok.2 t ht) hrun

/-- An invariant that every step preserves holds after every run. -/
theorem invariant_of_run {inv : σ → Prop} (hstep : ∀ {s a s'}, inv s → step s a = some s' → inv s') {s s' : σ}
    {as : List α} (hs : inv s) (hrun : run step s as = some s') : inv s' := by
  induction as generalizing s with
  | nil =>
    cases hrun
    exact hs
  | cons a as ih =>
    obtain ⟨t, ht, hrun⟩ := run_cons step hrun
    exact ih (hstep hs ht) hrun

theorem run_append {s : σ} {as bs : List α} :
    run step s (as ++ bs) = (run step s as).bind (fun s' => run step s' bs) := by
  induction as generalizing s with
  | nil => rfl
  | cons a as ih =>
    simp only [List.cons_append, run, Option.bind_assoc]
    congr 1
    funext s'
    exact ih

theorem RunMeets.and {ok ok' : σ → α → Prop} {s : σ} {as : List α} (h : RunMeets step ok s as)
    (h' : RunMeets step ok' s as) : RunMeets step (fun s a => ok s a ∧ ok' s a) s as := by
  induction as generalizing s with
  | nil => trivial
  | cons a as ih => exact ⟨⟨h.1, h'.1⟩, fun s' hs' => ih (h.2 s' hs') (h'.2 s' hs')⟩

theorem RunMeets.mono {ok ok' : σ → α → Prop} (himp : ∀ s a, ok s a → ok' s a) {s : σ} {as : List α}
    (h : RunMeets step ok s as) : RunMeets step ok' s as := by
  induction as generalizing s with
  | nil => trivial
  | cons a as ih => exact ⟨himp s a h.1, fun s' hs' => ih (h.2 s' hs')⟩

theorem RunMeets.cons {ok : σ → α → Prop} {s s' : σ} {a : α} {as : List α} (hok : ok s a) (hstep : step s a = some s')
    (hrest : RunMeets step ok s' as) : RunMeets step ok s (a :: as) := by
  refine ⟨hok, ?_⟩
  intro t ht
  rw [hstep, Option.some.injEq] at ht
  subst ht
  exact hrest

/-- A run that meets a condition, one step at a time. -/
theorem exists_run_cons {step : σ → α → Option σ} {ok : σ → α → Prop} {p : σ → Prop} {s s' : σ} {a : α}
    {as : List α} (hok : ok s a)
    (hstep : step s a = some s') (h : ∃ t, run step s' as = some t ∧ RunMeets step ok s' as ∧ p t) :
    ∃ t, run step s (a :: as) = some t ∧ RunMeets step ok s (a :: as) ∧ p t := by
  obtain ⟨t, hrun, hmeets, ht⟩ := h
  exact ⟨t, (run_of_step hstep as).trans hrun, hmeets.cons step hok hstep, ht⟩

/-- Check a condition along a run. -/
def checkRun (check : σ → α → Bool) : σ → List α → Bool
  | _, [] => true
  | s, a :: as => check s a && match step s a with
    | some s' => checkRun check s' as
    | none => true

/-- A run that passes a check meets what the check is for. -/
theorem runMeets_of_checkRun {check : σ → α → Bool} {ok : σ → α → Prop}
    (hcheck : ∀ s a, check s a = true → ok s a) {s : σ}
    {as : List α} (h : checkRun step check s as = true) : RunMeets step ok s as := by
  induction as generalizing s with
  | nil => trivial
  | cons a as ih =>
    obtain ⟨ha, hrest⟩ := Bool.and_eq_true_iff.mp h
    refine ⟨hcheck s a ha, ?_⟩
    intro s' hs'
    rw [hs'] at hrest
    exact ih hrest

/-- A condition on the actions alone. -/
theorem runMeets_of_forall {p : α → Prop} {s : σ} {as : List α} (h : ∀ a ∈ as, p a) :
    RunMeets step (fun _ a => p a) s as := by
  induction as generalizing s with
  | nil => trivial
  | cons a as ih =>
    refine ⟨h a List.mem_cons_self, ?_⟩
    intro s' _
    exact ih (fun b hb => h b (List.mem_cons_of_mem _ hb))

/-- A run in two parts. -/
theorem runMeets_append {ok : σ → α → Prop} {s : σ} {as bs : List α} :
    RunMeets step ok s (as ++ bs) ↔ RunMeets step ok s as ∧ ∀ t, run step s as = some t → RunMeets step ok t bs := by
  induction as generalizing s with
  | nil => simp [RunMeets, run]
  | cons a as ih =>
    simp only [List.cons_append, RunMeets, ih, run, Option.bind_eq_some_iff]
    constructor
    · rintro ⟨ha, hrest⟩
      refine ⟨⟨ha, fun s' hs' => (hrest s' hs').1⟩, ?_⟩
      rintro t ⟨s', hs', ht⟩
      exact (hrest s' hs').2 t ht
    · rintro ⟨⟨ha, hrest⟩, htail⟩
      exact ⟨ha, fun s' hs' => ⟨hrest s' hs', fun t ht => htail t ⟨s', hs', ht⟩⟩⟩

/-- A condition that every enabled step meets. -/
theorem runMeets_of_run {ok : σ → α → Prop} (hstep : ∀ {s a s'}, step s a = some s' → ok s a) {s s' : σ} {as : List α}
    (hrun : run step s as = some s') : RunMeets step ok s as := by
  induction as generalizing s with
  | nil => trivial
  | cons a as ih =>
    obtain ⟨t, ht, hrun⟩ := run_cons step hrun
    exact RunMeets.cons step (hstep ht) ht (ih hrun)

/-- If under the condition every step is enabled and preserves the invariant, a run that meets the condition does not
get stuck. -/
theorem exists_run {inv : σ → Prop} {ok : σ → α → Prop}
    (hstep : ∀ {s a}, inv s → ok s a → ∃ s', step s a = some s' ∧ inv s')
    {s : σ} {as : List α} (hs : inv s) (hok : RunMeets step ok s as) : ∃ s', run step s as = some s' ∧ inv s' := by
  induction as generalizing s with
  | nil => exact ⟨s, rfl, hs⟩
  | cons a as ih =>
    obtain ⟨t, ht, hinv⟩ := hstep hs hok.1
    obtain ⟨s', hrun, hinv'⟩ := ih hinv (hok.2 t ht)
    exact ⟨s', by rw [run, ht]; exact hrun, hinv'⟩

/-- What every step under the condition does, every step of a run that meets the condition does. -/
theorem forall_step_of_run {inv : σ → Prop} {ok : σ → α → Prop} {q : σ → α → σ → Prop}
    (hstep : ∀ {s a s'}, inv s → ok s a → step s a = some s' → inv s' ∧ q s a s') {s t t' : σ}
    {before after : List α} {a : α}
    (hs : inv s) (hok : RunMeets step ok s (before ++ a :: after)) (hrun : run step s before = some t)
    (ha : step t a = some t') : q t a t' := by
  induction before generalizing s with
  | nil =>
    cases hrun
    exact (hstep hs hok.1 ha).2
  | cons b before ih =>
    obtain ⟨u, hb, hrun⟩ := run_cons step hrun
    exact ih (hstep hs hok.1 hb).1 (hok.2 u hb) hrun

/-- Two conditions that agree in the states of an invariant agree on runs. -/
theorem runMeets_congr {inv : σ → Prop} {ok ok' : σ → α → Prop} (hiff : ∀ {s a}, inv s → (ok s a ↔ ok' s a))
    (hstep : ∀ {s a s'}, inv s → ok s a → step s a = some s' → inv s') {s : σ} {as : List α} (hs : inv s) :
    RunMeets step ok s as ↔ RunMeets step ok' s as := by
  induction as generalizing s with
  | nil => exact Iff.rfl
  | cons a as ih =>
    constructor
    · rintro ⟨h, hrest⟩
      exact ⟨(hiff hs).mp h, fun s' hs' => (ih (hstep hs h hs')).mp (hrest s' hs')⟩
    · rintro ⟨h, hrest⟩
      exact ⟨(hiff hs).mpr h, fun s' hs' => (ih (hstep hs ((hiff hs).mpr h) hs')).mpr (hrest s' hs')⟩

/-- If a condition on the step says when the next state has a property, then the property holds in all states of a run
if and only if the run meets the condition. -/
theorem forall_prefix_iff {inv p : σ → Prop} {ok : σ → α → Prop}
    (hiff : ∀ {s a s'}, inv s → step s a = some s' → (p s' ↔ ok s a))
    (hstep : ∀ {s a s'}, inv s → step s a = some s' → p s' → inv s') {s s' : σ} {as : List α} (hs : inv s) (hp : p s)
    (hrun : run step s as = some s') :
    (∀ before t, before <+: as → run step s before = some t → p t) ↔ RunMeets step ok s as := by
  induction as generalizing s with
  | nil =>
    refine iff_of_true ?_ trivial
    intro before t hbefore ht
    rw [List.prefix_nil] at hbefore
    subst hbefore
    cases ht
    exact hp
  | cons a as ih =>
    obtain ⟨s₁, ha, htail⟩ := run_cons step hrun
    constructor
    · intro hall
      have hp₁ : p s₁ := by
        apply hall [a] s₁
        · exact ⟨as, rfl⟩
        · rw [run, ha]
          rfl
      refine ⟨(hiff hs ha).mp hp₁, ?_⟩
      intro t ht
      rw [ha, Option.some.injEq] at ht
      subst ht
      apply (ih (hstep hs ha hp₁) hp₁ htail).mp
      intro before t hbefore ht
      apply hall (a :: before) t (List.cons_prefix_cons.mpr ⟨rfl, hbefore⟩)
      rw [run, ha]
      exact ht
    · rintro ⟨hok, hrest⟩ before t hbefore ht
      have hp₁ := (hiff hs ha).mpr hok
      cases before with
      | nil =>
        cases ht
        exact hp
      | cons b before =>
        obtain ⟨rfl, hprefix⟩ := List.cons_prefix_cons.mp hbefore
        obtain ⟨t₁, hb, ht₁⟩ := run_cons step ht
        rw [ha, Option.some.injEq] at hb
        subst hb
        exact (ih (hstep hs ha hp₁) hp₁ htail).mpr (hrest s₁ ha) before t hprefix ht₁

end StateMachine
