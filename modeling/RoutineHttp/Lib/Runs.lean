import Mathlib.Logic.Basic

/-! Runs of a machine whose step function says which actions are possible in a state,
invariants of all its runs, and conditions on the steps a run takes. -/
namespace RoutineHttp.Lib
variable {σ α : Type*}

def run (step : σ → α → Option σ) : σ → List α → Option σ
  | s, [] => some s
  | s, a :: actions => match step s a with
    | none => none
    | some s' => run step s' actions

/-- Every step a run takes from a state meets a condition. -/
def Along (step : σ → α → Option σ) (kept : σ → α → Prop) : σ → List α → Prop
  | _, [] => True
  | s, a :: actions => kept s a ∧ ∀ s', step s a = some s' → Along step kept s' actions

theorem run_cons {step : σ → α → Option σ} {s t : σ} {a : α} {actions : List α} :
    run step s (a :: actions) = some t ↔ ∃ s', step s a = some s' ∧ run step s' actions = some t := by
  rw [run]
  cases step s a <;> simp

theorem run_append {step : σ → α → Option σ} {s t : σ} {first second : List α} :
    run step s (first ++ second) = some t ↔
      ∃ s', run step s first = some s' ∧ run step s' second = some t := by
  induction first generalizing s with
  | nil => simp [run]
  | cons a first ih =>
    rw [List.cons_append, run_cons]
    simp only [ih, run_cons]
    constructor
    · rintro ⟨s', hs, s'', hf, ht⟩
      exact ⟨s'', ⟨s', hs, hf⟩, ht⟩
    · rintro ⟨s'', ⟨s', hs, hf⟩, ht⟩
      exact ⟨s', hs, s'', hf, ht⟩

theorem along_append {step : σ → α → Option σ} {kept : σ → α → Prop} {s t : σ}
    {first second : List α} (hrun : run step s first = some t) :
    Along step kept s (first ++ second) ↔ Along step kept s first ∧ Along step kept t second := by
  induction first generalizing s with
  | nil =>
    cases hrun
    simp [Along]
  | cons a first ih =>
    obtain ⟨s', hs', hrest⟩ := run_cons.mp hrun
    rw [List.cons_append, Along, Along, and_assoc]
    refine and_congr_right fun _ => ?_
    constructor
    · intro h
      obtain ⟨hfirst, hsecond⟩ := (ih hrest).mp (h s' hs')
      refine ⟨fun s'' hs'' => ?_, hsecond⟩
      cases hs'.symm.trans hs''
      exact hfirst
    · rintro ⟨hfirst, hsecond⟩ s'' hs''
      cases hs'.symm.trans hs''
      exact (ih hrest).mpr ⟨hfirst s' hs', hsecond⟩

/-- What every step preserves and implies a condition on it makes the condition hold along
every run. -/
theorem along_of_invariant {step : σ → α → Option σ} {kept : σ → α → Prop} {p : σ → Prop}
    (hkept : ∀ s a, p s → kept s a) (hstep : ∀ s a s', p s → step s a = some s' → p s') {s : σ}
    (hs : p s) (actions : List α) : Along step kept s actions := by
  induction actions generalizing s with
  | nil => trivial
  | cons a actions ih => exact ⟨hkept s a hs, fun s' hs' => ih (hstep s a s' hs hs')⟩

/-- Two conditions that agree on the steps possible under an invariant hold along the same
runs. -/
theorem along_congr {step : σ → α → Option σ} {kept kept' : σ → α → Prop} {inv : σ → Prop}
    (hinv : ∀ s a s', inv s → step s a = some s' → inv s')
    (hiff : ∀ s a s', inv s → step s a = some s' → (kept s a ↔ kept' s a)) {s t : σ}
    {actions : List α} (hs : inv s) (hrun : run step s actions = some t) :
    Along step kept s actions ↔ Along step kept' s actions := by
  induction actions generalizing s with
  | nil => exact Iff.rfl
  | cons a actions ih =>
    obtain ⟨s', hs', hrest⟩ := run_cons.mp hrun
    rw [Along, Along, hiff s a s' hs hs']
    refine and_congr_right fun _ => forall_congr' fun s'' => imp_congr_right fun hs'' => ?_
    cases hs'.symm.trans hs''
    exact ih (hinv s a s' hs hs') hrest

/-- What every step preserves holds at the end of every run. -/
theorem run_invariant {step : σ → α → Option σ} {p : σ → Prop}
    (hstep : ∀ s a s', p s → step s a = some s' → p s') {s t : σ} {actions : List α} (hs : p s)
    (hrun : run step s actions = some t) : p t := by
  induction actions generalizing s with
  | nil =>
    cases hrun
    exact hs
  | cons a actions ih =>
    obtain ⟨s', hs', hrest⟩ := run_cons.mp hrun
    exact ih (hstep s a s' hs hs') hrest

/-- What the steps meeting a condition preserve holds at the end of a run of such steps. -/
theorem run_invariant_along {step : σ → α → Option σ} {kept : σ → α → Prop} {p : σ → Prop}
    (hstep : ∀ s a s', p s → kept s a → step s a = some s' → p s') {s t : σ} {actions : List α}
    (hs : p s) (halong : Along step kept s actions) (hrun : run step s actions = some t) : p t := by
  induction actions generalizing s with
  | nil =>
    cases hrun
    exact hs
  | cons a actions ih =>
    obtain ⟨s', hs', hrest⟩ := run_cons.mp hrun
    exact ih (hstep s a s' hs halong.1 hs') (halong.2 s' hs') hrest

theorem along_of_forall_mem {step : σ → α → Option σ} {kept : σ → α → Prop} {actions : List α}
    (h : ∀ a ∈ actions, ∀ s, kept s a) (s : σ) : Along step kept s actions := by
  induction actions generalizing s with
  | nil => trivial
  | cons a actions ih =>
    obtain ⟨ha, hrest⟩ := List.forall_mem_cons.mp h
    exact ⟨ha s, fun s' _ => ih hrest s'⟩

/-- Where some allowed step brings every state that is short of a goal closer to it, an allowed
run ends there. -/
theorem exists_run_to {step : σ → α → Option σ} {inv goal : σ → Prop} {allowed : α → Prop}
    {ρ : Type*} [WellFoundedRelation ρ] (distance : σ → ρ)
    (hcloser : ∀ s, inv s → ¬ goal s → ∃ a s', allowed a ∧ step s a = some s' ∧ inv s' ∧
      WellFoundedRelation.rel (distance s') (distance s)) {s : σ} (hs : inv s) :
    ∃ actions t, (∀ a ∈ actions, allowed a) ∧ run step s actions = some t ∧ goal t := by
  induction s using (InvImage.wf distance WellFoundedRelation.wf).induction with
  | h s ih =>
    by_cases hgoal : goal s
    · exact ⟨[], s, List.forall_mem_nil _, rfl, hgoal⟩
    · obtain ⟨a, s', ha, hstep, hs', hrel⟩ := hcloser s hs hgoal
      obtain ⟨actions, t, hall, hrun, ht⟩ := ih s' hrel hs'
      exact ⟨a :: actions, t, List.forall_mem_cons.mpr ⟨ha, hall⟩,
        run_cons.mpr ⟨s', hstep, hrun⟩, ht⟩

/-- Where steps meeting a condition keep a property and other steps spoil it for good, every
run ends with one or the other. -/
theorem run_kept_or_spoiled {step : σ → α → Option σ} {kept : σ → α → Prop} {p spoiled : σ → Prop}
    (hkept : ∀ s a s', p s → kept s a → step s a = some s' → p s')
    (hspoil : ∀ s a s', p s → ¬ kept s a → step s a = some s' → spoiled s')
    (hstays : ∀ s a s', spoiled s → step s a = some s' → spoiled s') {s t : σ} {actions : List α}
    (hs : p s) (hrun : run step s actions = some t) : p t ∨ spoiled t := by
  refine run_invariant (p := fun s => p s ∨ spoiled s) (fun s a s' hs hs' => ?_) (Or.inl hs) hrun
  obtain hs | hs := hs
  · by_cases hk : kept s a
    · exact Or.inl (hkept s a s' hs hk hs')
    · exact Or.inr (hspoil s a s' hs hk hs')
  · exact Or.inr (hstays s a s' hs hs')

/-- A property that steps meeting a condition keep and other steps spoil for good holds at
the end of a run exactly when all its steps met the condition. -/
theorem run_iff_along {step : σ → α → Option σ} {kept : σ → α → Prop} {p spoiled : σ → Prop}
    (hkept : ∀ s a s', p s → kept s a → step s a = some s' → p s')
    (hspoil : ∀ s a s', p s → ¬ kept s a → step s a = some s' → spoiled s')
    (hstays : ∀ s a s', spoiled s → step s a = some s' → spoiled s')
    (hnot : ∀ s, spoiled s → ¬ p s) {s t : σ} {actions : List α} (hs : p s)
    (hrun : run step s actions = some t) : p t ↔ Along step kept s actions := by
  induction actions generalizing s with
  | nil =>
    cases hrun
    exact ⟨fun _ => trivial, fun _ => hs⟩
  | cons a actions ih =>
    obtain ⟨s', hs', hrest⟩ := run_cons.mp hrun
    by_cases hk : kept s a
    · rw [ih (hkept s a s' hs hk hs') hrest, Along]
      constructor
      · intro h
        refine ⟨hk, fun s'' hs'' => ?_⟩
        cases hs'.symm.trans hs''
        exact h
      · exact fun h => h.2 s' hs'
    · have hend := run_invariant hstays (hspoil s a s' hs hk hs') hrest
      exact ⟨fun h => absurd h (hnot t hend), fun h => absurd h.1 hk⟩

/-- A property holds at every point of a run. -/
def Throughout (step : σ → α → Option σ) (p : σ → Prop) (s : σ) (actions : List α) : Prop :=
  ∀ pre post s', actions = pre ++ post → run step s pre = some s' → p s'

theorem throughout_cons {step : σ → α → Option σ} {p : σ → Prop} {s s' : σ} {a : α}
    {actions : List α} (hs' : step s a = some s') :
    Throughout step p s (a :: actions) ↔ p s ∧ Throughout step p s' actions := by
  constructor
  · intro h
    refine ⟨h [] (a :: actions) s rfl rfl, fun pre post t heq hrun => ?_⟩
    exact h (a :: pre) post t (by rw [heq, List.cons_append]) (run_cons.mpr ⟨s', hs', hrun⟩)
  · rintro ⟨hs, hrest⟩ pre post t heq hrun
    cases pre with
    | nil =>
      cases hrun
      exact hs
    | cons b pre =>
      obtain ⟨rfl, rfl⟩ := List.cons.inj heq
      obtain ⟨s'', hs'', hrun'⟩ := run_cons.mp hrun
      cases hs'.symm.trans hs''
      exact hrest pre post t rfl hrun'

/-- Where an invariant kept by steps meeting a condition implies a property, and any other
step spoils the property at once, the property holds throughout exactly the runs whose steps
all meet the condition. -/
theorem throughout_iff_along {step : σ → α → Option σ} {kept : σ → α → Prop} {inv p : σ → Prop}
    (hinv : ∀ s, inv s → p s)
    (hkept : ∀ s a s', inv s → kept s a → step s a = some s' → inv s')
    (hspoil : ∀ s a s', inv s → ¬ kept s a → step s a = some s' → ¬ p s') {s t : σ}
    {actions : List α} (hs : inv s) (hrun : run step s actions = some t) :
    Throughout step p s actions ↔ Along step kept s actions := by
  induction actions generalizing s with
  | nil =>
    refine ⟨fun _ => trivial, fun _ pre post s' heq hpre => ?_⟩
    obtain ⟨rfl, -⟩ := List.append_eq_nil_iff.mp heq.symm
    cases hpre
    exact hinv s hs
  | cons a actions ih =>
    obtain ⟨s', hs', hrest⟩ := run_cons.mp hrun
    rw [throughout_cons hs', Along]
    by_cases hk : kept s a
    · rw [ih (hkept s a s' hs hk hs') hrest]
      constructor
      · rintro ⟨-, h⟩
        refine ⟨hk, fun s'' hs'' => ?_⟩
        cases hs'.symm.trans hs''
        exact h
      · exact fun h => ⟨hinv s hs, h.2 s' hs'⟩
    · refine ⟨fun h => ?_, fun h => absurd h.1 hk⟩
      exact absurd (h.2 [] actions s' rfl rfl) (hspoil s a s' hs hk hs')

end RoutineHttp.Lib
