import RoutineHttp.Lib.Runs
import Mathlib.Data.List.Basic

/-! The IO loops of a scheduler on its `io_context`: loops that call `run` again and again,
operations started from anywhere, and the stopped flag nobody resets. -/
namespace RoutineHttp.IoLoops
open Lib

/-- Where a loop is: about to call `run`, in `run` and looking for a handler, or executing
one. -/
inductive LoopStage where
  | outside | inside | handling
  deriving DecidableEq, Repr

/-- The loops `Scheduler::run` has still to push and those it has pushed, the operations
started and not completed, the handlers of completed ones, and the stopped flag. -/
structure Context where
  unpushed : Nat := 0
  loops : List LoopStage := []
  pending : Nat := 0
  ready : Nat := 0
  stopped : Bool := false
  deriving DecidableEq

inductive Action where
  | push
  | start
  | complete
  | loop (i : Nat)
  deriving DecidableEq

/-- The outstanding work asio counts: an operation counts until its handler has returned. -/
def work (c : Context) : Nat := c.pending + c.ready + c.loops.count .handling

/-- What a loop does next. `run` stops a context without work, as does the last handler to
return; in a stopped context `run` returns at once. -/
def loopStep (c : Context) (i : Nat) : LoopStage → Option Context
  | .outside =>
    if work c = 0 then some { c with stopped := true }
    else some { c with loops := c.loops.set i .inside }
  | .inside =>
    if c.stopped then some { c with loops := c.loops.set i .outside }
    else if c.ready = 0 then none
    else some { c with loops := c.loops.set i .handling, ready := c.ready - 1 }
  | .handling =>
    some { c with loops := c.loops.set i .inside, stopped := c.stopped || work c == 1 }

def step (c : Context) : Action → Option Context
  | .push => if c.unpushed = 0 then none
    else some { c with unpushed := c.unpushed - 1, loops := c.loops ++ [.outside] }
  | .start => some { c with pending := c.pending + 1 }
  | .complete => if c.pending = 0 then none
    else some { c with pending := c.pending - 1, ready := c.ready + 1 }
  | .loop i => c.loops[i]?.bind (loopStep c i)

/-- A fresh scheduler whose `run` is to push so many loops. -/
def initial (n : Nat) : Context := { unpushed := n }

/-- A loop finds no work: at its call of `run`, or when its handler was the last. -/
def FindsNoWork (c : Context) : Action → Prop
  | .loop i => (c.loops[i]? = some .outside ∧ work c = 0) ∨
      (c.loops[i]? = some .handling ∧ work c = 1)
  | _ => False

/-- An operation waits on a stopped context, and no loop will ever execute a handler. -/
def Starved (c : Context) : Prop :=
  0 < c.pending + c.ready ∧ c.stopped = true ∧
    ∀ actions t, run step c actions = some t → LoopStage.handling ∉ t.loops

/-- Everything a step can do. -/
theorem step_cases {c d : Context} {a : Action} (h : step c a = some d) :
    match a with
    | .push => d = { c with unpushed := c.unpushed - 1, loops := c.loops ++ [.outside] }
    | .start => d = { c with pending := c.pending + 1 }
    | .complete => 0 < c.pending ∧ d = { c with pending := c.pending - 1, ready := c.ready + 1 }
    | .loop i => ∃ stage, c.loops[i]? = some stage ∧ loopStep c i stage = some d := by
  cases a with
  | push =>
    simp only [step] at h
    split at h
    · cases h
    · exact (Option.some.inj h).symm
  | start => exact (Option.some.inj h).symm
  | complete =>
    simp only [step] at h
    split at h
    · cases h
    · next hp => exact ⟨Nat.pos_of_ne_zero hp, (Option.some.inj h).symm⟩
  | loop i => exact Option.bind_eq_some_iff.mp h

theorem loopStep_cases {c d : Context} {i : Nat} {stage : LoopStage}
    (h : loopStep c i stage = some d) :
    match stage with
    | .outside => (work c = 0 ∧ d = { c with stopped := true }) ∨
        (work c ≠ 0 ∧ d = { c with loops := c.loops.set i .inside })
    | .inside => (c.stopped = true ∧ d = { c with loops := c.loops.set i .outside }) ∨
        (c.stopped = false ∧ 0 < c.ready ∧
          d = { c with loops := c.loops.set i .handling, ready := c.ready - 1 })
    | .handling =>
        d = { c with loops := c.loops.set i .inside, stopped := c.stopped || work c == 1 } := by
  cases stage with
  | outside =>
    simp only [loopStep] at h
    split at h
    · next hw => exact Or.inl ⟨hw, (Option.some.inj h).symm⟩
    · next hw => exact Or.inr ⟨hw, (Option.some.inj h).symm⟩
  | inside =>
    simp only [loopStep] at h
    split at h
    · next hs => exact Or.inl ⟨hs, (Option.some.inj h).symm⟩
    · next hs =>
      split at h
      · cases h
      · next hr =>
        exact Or.inr ⟨Bool.eq_false_iff.mpr hs, Nat.pos_of_ne_zero hr, (Option.some.inj h).symm⟩
  | handling => exact (Option.some.inj h).symm

/-- The flag is set where a loop finds no work, and stays. -/
theorem stopped_step {c d : Context} {a : Action} (h : step c a = some d) :
    d.stopped = true ↔ c.stopped = true ∨ FindsNoWork c a := by
  have hcases := step_cases h
  cases a with
  | push => simp [hcases, FindsNoWork]
  | start => simp [hcases, FindsNoWork]
  | complete => simp [hcases.2, FindsNoWork]
  | loop i =>
    obtain ⟨stage, hstage, hloop⟩ := hcases
    have hl := loopStep_cases hloop
    cases stage with
    | outside =>
      obtain ⟨hw, rfl⟩ | ⟨hw, rfl⟩ := hl
      · simp [FindsNoWork, hstage, hw]
      · simp [FindsNoWork, hstage, hw]
    | inside =>
      obtain ⟨hs, rfl⟩ | ⟨hs, -, rfl⟩ := hl <;> simp [FindsNoWork, hstage]
    | handling => simp [hl, FindsNoWork, hstage]

/-- On a stopped context no handler is executed. -/
def Quiet (c : Context) : Prop := c.stopped = true → LoopStage.handling ∉ c.loops

theorem notMem_set {loops : List LoopStage} (h : LoopStage.handling ∉ loops) {i : Nat}
    {stage : LoopStage} (hs : stage ≠ .handling) : LoopStage.handling ∉ loops.set i stage := by
  intro hmem
  obtain hmem | heq := List.mem_or_eq_of_mem_set hmem
  · exact h hmem
  · exact hs heq.symm

/-- The only handler being executed returns. -/
theorem notMem_set_of_last {loops : List LoopStage} {i : Nat} (hi : loops[i]? = some .handling)
    (hone : loops.count .handling ≤ 1) : LoopStage.handling ∉ loops.set i .inside := by
  obtain ⟨hlt, hget⟩ := List.getElem?_eq_some_iff.mp hi
  have hcount := List.count_set (a := .inside) (b := LoopStage.handling) hlt
  rw [hget] at hcount
  refine List.count_eq_zero.mp (hcount.trans ?_)
  simp [hone]

theorem quiet_step {c d : Context} {a : Action} (hc : Quiet c) (h : step c a = some d) : Quiet d := by
  intro hstopped
  have hor := (stopped_step h).mp hstopped
  have hcases := step_cases h
  cases a with
  | push =>
    have hs : c.stopped = true := hor.resolve_right id
    rw [hcases]
    simp [hc hs]
  | start =>
    have hs : c.stopped = true := hor.resolve_right id
    rw [hcases]
    exact hc hs
  | complete =>
    have hs : c.stopped = true := hor.resolve_right id
    rw [hcases.2]
    exact hc hs
  | loop i =>
    obtain ⟨stage, hstage, hloop⟩ := hcases
    have hl := loopStep_cases hloop
    cases stage with
    | outside =>
      obtain ⟨hw, rfl⟩ | ⟨hw, rfl⟩ := hl
      · have hzero : c.loops.count .handling = 0 := by unfold work at hw; omega
        exact List.count_eq_zero.mp hzero
      · exact notMem_set (hc hstopped) (by decide)
    | inside =>
      obtain ⟨hs, rfl⟩ | ⟨hs, -, rfl⟩ := hl
      · exact notMem_set (hc hs) (by decide)
      · rw [hs] at hstopped
        cases hstopped
    | handling =>
      have hmem : LoopStage.handling ∈ c.loops := List.mem_of_getElem? hstage
      have hone : work c = 1 := by
        obtain hs | ⟨hout, -⟩ | ⟨-, hw⟩ := hor
        · exact absurd hmem (hc hs)
        · rw [hstage] at hout; cases hout
        · exact hw
      rw [hl]
      exact notMem_set_of_last hstage (by unfold work at hone; omega)

/-- Once stopped, always stopped, and no handler is executed again. -/
theorem starved_iff {c : Context} (hc : Quiet c) :
    Starved c ↔ 0 < c.pending + c.ready ∧ c.stopped = true := by
  refine ⟨fun h => ⟨h.1, h.2.1⟩, fun h => ⟨h.1, h.2, fun actions t hrun => ?_⟩⟩
  have hend : Quiet t ∧ t.stopped = true := by
    refine run_invariant (p := fun c => Quiet c ∧ c.stopped = true) ?_ ⟨hc, h.2⟩ hrun
    rintro c a d ⟨hc, hs⟩ hstep
    exact ⟨quiet_step hc hstep, (stopped_step hstep).mpr (Or.inl hs)⟩
  exact hend.1 hend.2

/-- On a stopped context nothing waits. -/
def Drained (c : Context) : Prop := c.stopped = true → c.pending + c.ready = 0

theorem drained_step {c d : Context} {a : Action} (hc : Drained c)
    (hstart : a = .start → c.stopped = false) (h : step c a = some d) : Drained d := by
  intro hstopped
  have hor := (stopped_step h).mp hstopped
  have hcases := step_cases h
  cases a with
  | push =>
    rw [hcases]
    exact hc (hor.resolve_right id)
  | start =>
    have hs : c.stopped = true := hor.resolve_right id
    rw [hstart rfl] at hs
    cases hs
  | complete =>
    have hzero := hc (hor.resolve_right id)
    have hpos := hcases.1
    omega
  | loop i =>
    obtain ⟨stage, hstage, hloop⟩ := hcases
    have hl := loopStep_cases hloop
    cases stage with
    | outside =>
      obtain ⟨hw, rfl⟩ | ⟨hw, rfl⟩ := hl
      · unfold work at hw
        dsimp only
        omega
      · exact hc hstopped
    | inside =>
      obtain ⟨hs, rfl⟩ | ⟨hs, -, rfl⟩ := hl
      · exact hc hs
      · rw [hs] at hstopped
        cases hstopped
    | handling =>
      rw [hl]
      obtain hs | ⟨hout, -⟩ | ⟨-, hw⟩ := hor
      · exact hc hs
      · rw [hstage] at hout; cases hout
      · have hpos : 0 < c.loops.count .handling :=
          List.count_pos_iff.mpr (List.mem_of_getElem? hstage)
        unfold work at hw
        dsimp only
        omega

/-- No state of the run is starved. -/
def KeepsServing (n : Nat) (actions : List Action) : Prop :=
  ∀ pre post c, actions = pre ++ post → run step (initial n) pre = some c → ¬ Starved c

/-- No loop finds the context without work before an operation is started. -/
def StartsInTime (n : Nat) (actions : List Action) : Prop :=
  ∀ pre post, actions = pre ++ .start :: post →
    Along step (fun c a => ¬ FindsNoWork c a) (initial n) pre

theorem quiet_run {n : Nat} {actions : List Action} {c : Context}
    (hrun : run step (initial n) actions = some c) : Quiet c :=
  run_invariant (fun _ _ _ hc h => quiet_step hc h) (fun hs => by cases hs) hrun

/-- The flag tells whether a loop has found no work on the way. -/
theorem running_iff_along {n : Nat} {actions : List Action} {c : Context}
    (hrun : run step (initial n) actions = some c) :
    c.stopped = false ↔ Along step (fun c a => ¬ FindsNoWork c a) (initial n) actions := by
  have hnot : ∀ {c d a}, step c a = some d →
      (d.stopped = false ↔ c.stopped = false ∧ ¬ FindsNoWork c a) := by
    intro c d a h
    rw [← Bool.not_eq_true, stopped_step h, not_or, Bool.not_eq_true]
  refine @run_iff_along _ _ step (fun c a => ¬ FindsNoWork c a) (fun c => c.stopped = false)
    (fun c => c.stopped = true) (fun c a d hc hk h => (hnot h).mpr ⟨hc, hk⟩) (fun c a d hc hk h => ?_)
    (fun c a d hc h => (stopped_step h).mpr (Or.inl hc)) (fun c hs => by simp [hs]) _ _ _ rfl hrun
  exact (stopped_step h).mpr (Or.inr (by simpa using hk))

theorem drained_run {actions : List Action} {c d : Context}
    (hstarts : ∀ pre post e, actions = pre ++ .start :: post → run step c pre = some e →
      e.stopped = false) (hc : Drained c) (hrun : run step c actions = some d) : Drained d := by
  induction actions generalizing c with
  | nil => cases hrun; exact hc
  | cons a actions ih =>
    obtain ⟨c', hstep, hrest⟩ := run_cons.mp hrun
    refine ih (fun pre post e heq hpre => ?_) (drained_step hc (fun ha => ?_) hstep) hrest
    · exact hstarts (a :: pre) post e (by rw [heq, List.cons_append])
        (run_cons.mpr ⟨c', hstep, hpre⟩)
    · exact hstarts [] actions c (by rw [ha, List.nil_append]) rfl

/-- No operation is ever left on a stopped context exactly when none is started after a loop
has found the context without work. -/
theorem keeps_serving_iff {n : Nat} {actions : List Action} {d : Context}
    (hrun : run step (initial n) actions = some d) :
    KeepsServing n actions ↔ StartsInTime n actions := by
  constructor
  · rintro h pre post rfl
    obtain ⟨c, hpre, hrest⟩ := run_append.mp hrun
    obtain ⟨c', hstep, -⟩ := run_cons.mp hrest
    rw [← running_iff_along hpre, ← Bool.not_eq_true]
    intro hs
    have hpre' : run step (initial n) (pre ++ [.start]) = some c' :=
      run_append.mpr ⟨c, hpre, run_cons.mpr ⟨c', hstep, rfl⟩⟩
    refine h (pre ++ [.start]) post c' (by simp) hpre' ((starved_iff (quiet_run hpre')).mpr ?_)
    rw [step_cases hstep]
    exact ⟨by dsimp only; omega, hs⟩
  · rintro h pre post c rfl hpre hstarved
    obtain ⟨hpos, hs⟩ := (starved_iff (quiet_run hpre)).mp hstarved
    have hdrained : Drained c := by
      refine drained_run (fun pre' post' e heq hpre' => ?_) (fun hs => by cases hs) hpre
      rw [running_iff_along hpre']
      exact h pre' (post' ++ post) (by rw [heq, List.append_assoc, List.cons_append])
    exact absurd (hdrained hs) (by omega)

/-- The loop comes first, the acceptor starts its first operation afterwards. -/
theorem loop_before_operation :
    ∃ c, run step (initial 1) [.push, .loop 0, .start] = some c ∧ Starved c ∧
      ¬ KeepsServing 1 [.push, .loop 0, .start] := by
  have hrun : run step (initial 1) [.push, .loop 0, .start] =
      some { loops := [.outside], pending := 1, stopped := true } := rfl
  have hstarved := (starved_iff (quiet_run hrun)).mpr ⟨by decide, rfl⟩
  refine ⟨_, hrun, hstarved, fun h => ?_⟩
  exact h [.push, .loop 0, .start] [] _ rfl hrun hstarved

/-- The operation comes first, as in the example program, and the loop serves it. -/
theorem keeps_serving_iff_started :
    KeepsServing 1 [.start, .push, .loop 0, .complete, .loop 0] := by
  refine (keeps_serving_iff (d := { loops := [.handling] }) rfl).mpr fun pre post heq => ?_
  cases pre with
  | nil => trivial
  | cons a pre =>
    have htail : [.push, .loop 0, .complete, .loop 0] = pre ++ .start :: post := (List.cons.inj heq).2
    have hmem : Action.start ∈ [.push, .loop 0, .complete, .loop 0] := by rw [htail]; simp
    exact absurd hmem (by decide)

end RoutineHttp.IoLoops
