import RoutineHttp.Lib.Runs
import Mathlib.Data.List.Basic

/-! What the steps of a run show to an observer, and machines that hand on what they take in
the order they take it. -/
namespace RoutineHttp.Lib
variable {σ α β : Type*} {step : σ → α → Option σ}

/-- What the steps of a run show, in order; each of them at most one thing. -/
def trace (step : σ → α → Option σ) (shows : σ → α → Option β) : σ → List α → List β
  | _, [] => []
  | s, a :: actions => match step s a with
    | none => []
    | some s' => (shows s a).toList ++ trace step shows s' actions

theorem trace_cons {shows : σ → α → Option β} {s s' : σ} {a : α} (h : step s a = some s')
    (actions : List α) :
    trace step shows s (a :: actions) = (shows s a).toList ++ trace step shows s' actions := by
  rw [trace, h]

/-- If every step adds what it takes at the end of the content and what it gives comes from
the front, a run gives what there was and what it took, in this order, up to what is left. -/
theorem trace_in_order {takes gives : σ → α → Option β} (content : σ → List β) {inv : σ → Prop}
    {allowed : α → Prop} (hinv : ∀ s a s', inv s → allowed a → step s a = some s' → inv s')
    (hstep : ∀ s a s', inv s → allowed a → step s a = some s' →
      content s ++ (takes s a).toList = (gives s a).toList ++ content s')
    {s t : σ} {actions : List α} (hs : inv s) (hall : ∀ a ∈ actions, allowed a)
    (hrun : run step s actions = some t) :
    content s ++ trace step takes s actions = trace step gives s actions ++ content t := by
  induction actions generalizing s with
  | nil =>
    cases hrun
    exact List.append_nil _
  | cons a actions ih =>
    obtain ⟨s', hs', hrest⟩ := run_cons.mp hrun
    obtain ⟨ha, hall⟩ := List.forall_mem_cons.mp hall
    have hlater := ih (hinv s a s' hs ha hs') hall hrest
    rw [trace_cons hs', trace_cons hs', ← List.append_assoc, hstep s a s' hs ha hs',
      List.append_assoc, hlater, List.append_assoc]

/-- What is seen of the trace is what is seen of the actions themselves. -/
theorem filterMap_trace {γ : Type*} {shows : σ → α → Option β} {sees : β → Option γ}
    {direct : α → Option γ} (hsees : ∀ s a, (shows s a).bind sees = direct a)
    {s t : σ} {actions : List α} (hrun : run step s actions = some t) :
    (trace step shows s actions).filterMap sees = actions.filterMap direct := by
  induction actions generalizing s with
  | nil => rfl
  | cons a actions ih =>
    obtain ⟨s', hs', hrest⟩ := run_cons.mp hrun
    rw [trace_cons hs', List.filterMap_append, ih hrest, List.filterMap_cons, ← hsees s a]
    cases shows s a with
    | none => rfl
    | some b => cases hb : sees b <;> simp [hb]

/-- A machine that follows every step of another one, by one step or by none, follows its runs. -/
theorem run_trace {τ : Type*} {small : τ → β → Option τ} {shows : σ → α → Option β} (view : σ → τ)
    (hstep : ∀ s a s', step s a = some s' →
      run small (view s) (shows s a).toList = some (view s'))
    {s t : σ} {actions : List α} (hrun : run step s actions = some t) :
    run small (view s) (trace step shows s actions) = some (view t) := by
  induction actions generalizing s with
  | nil =>
    cases hrun
    rfl
  | cons a actions ih =>
    obtain ⟨s', hs', hrest⟩ := run_cons.mp hrun
    rw [trace_cons hs', run_append]
    exact ⟨view s', hstep s a s' hs', ih hrest⟩

end RoutineHttp.Lib
