import RoutineHttp.ThreadPool

/-! One worker while it is being constructed. Its members are initialised in the order of
their declaration, the thread comes first, and the new thread may run from then on, whatever
the memory of the other members holds. -/
namespace RoutineHttp.WorkerConstruction
open Lib

inductive Member where
  | queue | mutex | cv | status
  deriving DecidableEq, Repr

/-- The members behind `thread_`, as they are declared. -/
def declared : List Member := [.queue, .mutex, .cv, .status]

/-- The bytes of `Status::Working` and `Status::Stopped`. -/
def working : UInt8 := UInt8.ofNat 0
def stopped : UInt8 := UInt8.ofNat 1

/-- The next operation of the thread in `process_worker`. The predicate of `wait_for` looks at
the queue and then at the status; behind a timeout its last result does not matter. -/
inductive Stage (τ : Type*) where
  | locking
  | testing (last : Bool)
  | testingStatus (last : Bool)
  | blocking
  | waiting
  | checkingStatus
  | checkingQueue
  | running (task : τ)
  | returned

/-- The members still to be initialised, their content, and whether `stop` has been called. -/
structure Worker (τ : Type*) where
  uninitialised : List Member := declared
  queue : List τ
  mutex : Bool
  status : UInt8
  stage : Stage τ := .locking
  stopCalled : Bool := false

inductive Action (τ : Type*) where
  | construct
  | processWorker
  | wake (timedOut : Bool)
  | push (task : τ)
  | stop

variable {τ : Type*}

/-- A worker whose thread has just been started in memory with this content. -/
def allocated (queue : List τ) (mutex : Bool) (status : UInt8) : Worker τ :=
  { queue, mutex, status }

def initialise (w : Worker τ) : Member → Worker τ
  | .queue => { w with queue := [] }
  | .mutex => { w with mutex := false }
  | .cv => w
  | .status => { w with status := working }

/-- An operation of `process_worker`. At a mutex that is taken the thread goes on waiting. -/
def processWorker (w : Worker τ) : Stage τ → Option (Worker τ)
  | .locking => some (if w.mutex then w else { w with mutex := true, stage := .testing false })
  | .testing last =>
    some { w with stage := if w.queue.isEmpty then .testingStatus last else .checkingStatus }
  | .testingStatus last =>
    some { w with stage := if w.status = stopped ∨ last then .checkingStatus else .blocking }
  | .blocking => some { w with mutex := false, stage := .waiting }
  | .waiting => none
  | .checkingStatus => some (if w.status = stopped then { w with mutex := false, stage := .returned }
    else { w with stage := .checkingQueue })
  | .checkingQueue => match w.queue with
    | [] => some { w with mutex := false, stage := .locking }
    | task :: queue => some { w with queue, mutex := false, stage := .running task }
  | .running _ => some { w with stage := .locking }
  | .returned => none

/-- Other threads get at the worker when its constructor is done. -/
def step (w : Worker τ) : Action τ → Option (Worker τ)
  | .construct => match w.uninitialised with
    | [] => none
    | member :: rest => some (initialise { w with uninitialised := rest } member)
  | .processWorker => processWorker w w.stage
  | .wake timedOut => match w.stage with
    | .waiting => if w.mutex then none else some { w with mutex := true, stage := .testing timedOut }
    | _ => none
  | .push task =>
    if w.uninitialised = [] ∧ w.mutex = false then some { w with queue := w.queue ++ [task] }
    else none
  | .stop =>
    if w.uninitialised = [] then some { w with status := stopped, stopCalled := true } else none

/-- The members the next operation of the thread uses. -/
def uses (w : Worker τ) : Action τ → List Member
  | .processWorker => match w.stage with
    | .locking => [.mutex]
    | .testing _ => [.queue]
    | .testingStatus _ => [.status]
    | .blocking => [.cv, .mutex]
    | .checkingStatus => [.status, .mutex]
    | .checkingQueue => [.queue, .mutex]
    | _ => []
  | .wake _ => match w.stage with
    | .waiting => [.cv, .mutex]
    | _ => []
  | _ => []

/-- The thread uses members that have been initialised, and returns when told to. -/
def Proper (w : Worker τ) (a : Action τ) : Prop :=
  (∀ member ∈ uses w a, member ∉ w.uninitialised) ∧
    ∀ w', step w a = some w' → w'.stage = .returned → w'.stopCalled = true

/-- Everything a step can do. -/
theorem step_cases {w w' : Worker τ} {a : Action τ} (h : step w a = some w') :
    match a with
    | .construct => ∃ member rest, w.uninitialised = member :: rest ∧
        w' = initialise { w with uninitialised := rest } member
    | .processWorker => processWorker w w.stage = some w'
    | .wake timedOut => w.stage = .waiting ∧
        w' = { w with mutex := true, stage := .testing timedOut }
    | .push task => w.uninitialised = [] ∧ w.mutex = false ∧
        w' = { w with queue := w.queue ++ [task] }
    | .stop => w.uninitialised = [] ∧ w' = { w with status := stopped, stopCalled := true } := by
  cases a with
  | construct =>
    simp only [step] at h
    split at h
    · cases h
    · next member rest hmembers => exact ⟨member, rest, hmembers, (Option.some.inj h).symm⟩
  | processWorker => exact h
  | wake timedOut =>
    simp only [step] at h
    split at h
    · next hwaiting =>
      split at h
      · cases h
      · exact ⟨hwaiting, (Option.some.inj h).symm⟩
    · cases h
  | push task =>
    simp only [step] at h
    split at h
    · next hbuilt => exact ⟨hbuilt.1, hbuilt.2, (Option.some.inj h).symm⟩
    · cases h
  | stop =>
    simp only [step] at h
    split at h
    · next hbuilt => exact ⟨hbuilt, (Option.some.inj h).symm⟩
    · cases h

/-- The worker of the pool machine: the loop up to the check of the status is one stage. -/
def toPool (w : Worker τ) : CpuThreadWorker τ where
  status := if w.status = stopped then .stopped else .working
  queue := w.queue
  stage := match w.stage with
    | .checkingQueue => .checked
    | .running task => .running task
    | .returned => .exited
    | _ => .idle

theorem toPool_processWorker {w w' : Worker τ} {stage : Stage τ} (hstage : w.stage = stage)
    (h : processWorker w stage = some w') :
    toPool w' = toPool w ∨ ∃ executed, (toPool w).processWorker = some (toPool w', executed) := by
  cases stage with
  | locking =>
    cases h
    left
    split
    · rfl
    · simp [toPool, hstage]
  | testing last =>
    cases h
    left
    cases hq : w.queue.isEmpty <;> simp [toPool, hstage]
  | testingStatus last =>
    cases h
    left
    by_cases hs : w.status = stopped ∨ last = true <;> simp [toPool, hstage, hs]
  | blocking =>
    cases h
    left
    simp [toPool, hstage]
  | waiting => cases h
  | checkingStatus =>
    cases h
    right
    by_cases hs : w.status = stopped <;>
      simp [toPool, CpuThreadWorker.processWorker, hstage, hs]
  | checkingQueue =>
    right
    cases hq : w.queue with
    | nil =>
      simp only [processWorker, hq] at h
      cases h
      simp [toPool, CpuThreadWorker.processWorker, hstage, hq]
    | cons task queue =>
      simp only [processWorker, hq] at h
      cases h
      simp [toPool, CpuThreadWorker.processWorker, hstage, hq]
  | running task =>
    cases h
    right
    exact ⟨some task, by simp [toPool, CpuThreadWorker.processWorker, hstage]⟩
  | returned => cases h

/-- Once constructed the worker does what a worker of the pool does: its thread takes a step
of `process_worker` there or none. -/
theorem toPool_step {w w' : Worker τ} {a : Action τ} (hw : w.uninitialised = [])
    (h : step w a = some w') :
    match a with
    | .push task => toPool w' = (toPool w).enqueue task
    | .stop => toPool w' = { toPool w with status := .stopped }
    | _ => toPool w' = toPool w ∨
        ∃ executed, (toPool w).processWorker = some (toPool w', executed) := by
  have hcases := step_cases h
  cases a with
  | construct =>
    obtain ⟨member, rest, hmembers, -⟩ := hcases
    rw [hw] at hmembers
    cases hmembers
  | processWorker => exact toPool_processWorker rfl hcases
  | wake timedOut =>
    obtain ⟨hstage, rfl⟩ := hcases
    exact Or.inl (by simp [toPool, hstage])
  | push task =>
    obtain ⟨-, -, rfl⟩ := hcases
    rfl
  | stop =>
    obtain ⟨-, rfl⟩ := hcases
    simp [toPool]

/-- An operation of the thread leaves the status alone, and it returns where it sees it
stopped. -/
theorem processWorker_frame {w w' : Worker τ} {stage : Stage τ}
    (h : processWorker w stage = some w') :
    w'.uninitialised = w.uninitialised ∧ w'.status = w.status ∧ w'.stopCalled = w.stopCalled ∧
      (w'.stage = .returned → w.stage = .returned ∨ w.status = stopped) := by
  cases stage with
  | locking =>
    cases h
    split
    · exact ⟨rfl, rfl, rfl, Or.inl⟩
    · exact ⟨rfl, rfl, rfl, fun hr => by cases hr⟩
  | testing last =>
    cases h
    refine ⟨rfl, rfl, rfl, fun hr => ?_⟩
    dsimp only at hr
    split at hr <;> cases hr
  | testingStatus last =>
    cases h
    refine ⟨rfl, rfl, rfl, fun hr => ?_⟩
    dsimp only at hr
    split at hr <;> cases hr
  | blocking =>
    cases h
    exact ⟨rfl, rfl, rfl, fun hr => by cases hr⟩
  | waiting => cases h
  | checkingStatus =>
    cases h
    split
    · next hs => exact ⟨rfl, rfl, rfl, fun _ => Or.inr hs⟩
    · exact ⟨rfl, rfl, rfl, fun hr => by cases hr⟩
  | checkingQueue =>
    simp only [processWorker] at h
    split at h
    · cases h
      exact ⟨rfl, rfl, rfl, fun hr => by cases hr⟩
    · cases h
      exact ⟨rfl, rfl, rfl, fun hr => by cases hr⟩
  | running task =>
    cases h
    exact ⟨rfl, rfl, rfl, fun hr => by cases hr⟩
  | returned => cases h

/-- A worker whose construction is done, and whose status and thread tell of a call of
`stop` truthfully. -/
structure Built (w : Worker τ) : Prop where
  members : w.uninitialised = []
  status : w.status = stopped → w.stopCalled = true
  stage : w.stage = .returned → w.stopCalled = true

theorem built_step {w w' : Worker τ} {a : Action τ} (hw : Built w) (h : step w a = some w') :
    Built w' := by
  have hcases := step_cases h
  cases a with
  | construct =>
    obtain ⟨member, rest, hmembers, -⟩ := hcases
    rw [hw.members] at hmembers
    cases hmembers
  | processWorker =>
    obtain ⟨hmembers, hstatus, hcalled, hreturned⟩ := processWorker_frame hcases
    refine ⟨hmembers.trans hw.members, fun hs => ?_, fun hr => ?_⟩
    · rw [hcalled]
      exact hw.status (hstatus.symm.trans hs)
    · rw [hcalled]
      exact (hreturned hr).elim hw.stage hw.status
  | wake timedOut =>
    obtain ⟨-, rfl⟩ := hcases
    exact ⟨hw.members, hw.status, fun hr => by cases hr⟩
  | push task =>
    obtain ⟨-, -, rfl⟩ := hcases
    exact ⟨hw.members, hw.status, hw.stage⟩
  | stop =>
    obtain ⟨-, rfl⟩ := hcases
    exact ⟨hw.members, fun _ => rfl, fun _ => rfl⟩

theorem proper_of_built {w : Worker τ} (hw : Built w) (a : Action τ) : Proper w a := by
  refine ⟨fun member _ => ?_, fun w' hstep hr => (built_step hw hstep).stage hr⟩
  rw [hw.members]
  exact List.not_mem_nil

/-- A worker whose thread has not got to its first operation. -/
structure Unstarted (w : Worker τ) : Prop where
  stage : w.stage = .locking
  members : w.uninitialised <:+ declared
  mutex : .mutex ∉ w.uninitialised → w.mutex = false
  queue : .queue ∉ w.uninitialised → w.uninitialised ≠ [] → w.queue = []
  status : w.uninitialised = [] → w.status = stopped → w.stopCalled = true

theorem unstarted_allocated (queue : List τ) (mutex : Bool) (status : UInt8) :
    Unstarted (allocated queue mutex status) :=
  ⟨rfl, List.suffix_rfl, fun h => absurd (by simp [allocated, declared]) h,
    fun h => absurd (by simp [allocated, declared]) h, fun h => by cases h⟩

theorem eq_status_of_suffix {member : Member} (h : [member] <:+ declared) : member = .status := by
  revert h
  cases member <;> decide

theorem unstarted_construct {w : Worker τ} {member : Member} {rest : List Member}
    (hw : Unstarted w) (hmembers : w.uninitialised = member :: rest) :
    Unstarted (initialise { w with uninitialised := rest } member) := by
  obtain ⟨hstage, hsuffix, hmutex, hqueue, -⟩ := hw
  rw [hmembers] at hsuffix hmutex hqueue
  have hrest : rest <:+ declared := (List.suffix_cons member rest).trans hsuffix
  have hlast : rest = [] → member = .status := fun hnil => by
    rw [hnil] at hsuffix
    exact eq_status_of_suffix hsuffix
  cases member with
  | queue =>
    exact ⟨hstage, hrest, fun h => hmutex (List.not_mem_cons_of_ne_of_not_mem (by decide) h),
      fun _ _ => rfl, fun hnil => by cases hlast hnil⟩
  | mutex =>
    exact ⟨hstage, hrest, fun _ => rfl,
      fun h _ => hqueue (List.not_mem_cons_of_ne_of_not_mem (by decide) h) (List.cons_ne_nil _ _),
      fun hnil => by cases hlast hnil⟩
  | cv =>
    exact ⟨hstage, hrest, fun h => hmutex (List.not_mem_cons_of_ne_of_not_mem (by decide) h),
      fun h _ => hqueue (List.not_mem_cons_of_ne_of_not_mem (by decide) h) (List.cons_ne_nil _ _),
      fun hnil => by cases hlast hnil⟩
  | status =>
    have hne : working ≠ stopped := by decide
    exact ⟨hstage, hrest, fun h => hmutex (List.not_mem_cons_of_ne_of_not_mem (by decide) h),
      fun h _ => hqueue (List.not_mem_cons_of_ne_of_not_mem (by decide) h) (List.cons_ne_nil _ _),
      fun _ hs => absurd hs hne⟩

theorem unstarted_step {w w' : Worker τ} {a : Action τ} (hw : Unstarted w)
    (ha : a ≠ .processWorker) (h : step w a = some w') : Unstarted w' := by
  have hcases := step_cases h
  cases a with
  | construct =>
    obtain ⟨member, rest, hmembers, rfl⟩ := hcases
    exact unstarted_construct hw hmembers
  | processWorker => exact absurd rfl ha
  | wake timedOut =>
    rw [hw.stage] at hcases
    cases hcases.1
  | push task =>
    obtain ⟨hbuilt, -, rfl⟩ := hcases
    exact ⟨hw.stage, hw.members, hw.mutex, fun _ hne => absurd hbuilt hne, hw.status⟩
  | stop =>
    obtain ⟨-, rfl⟩ := hcases
    exact ⟨hw.stage, hw.members, hw.mutex, hw.queue, fun _ _ => rfl⟩

/-- Before the thread's first operation nothing can go wrong. -/
theorem unstarted_run {w s : Worker τ} {pre : List (Action τ)} (hw : Unstarted w)
    (hpre : .processWorker ∉ pre) (hrun : run step w pre = some s) :
    Unstarted s ∧ Along step Proper w pre := by
  induction pre generalizing w with
  | nil =>
    cases hrun
    exact ⟨hw, trivial⟩
  | cons a pre ih =>
    obtain ⟨hne, hpre⟩ := not_or.mp (mt List.mem_cons.mpr hpre)
    obtain ⟨w', hstep, hrest⟩ := run_cons.mp hrun
    have hw' := unstarted_step hw (Ne.symm hne) hstep
    obtain ⟨hs, halong⟩ := ih hw' hpre hrest
    refine ⟨hs, ⟨?_, fun w'' hw'' hr => ?_⟩, fun w'' hw'' => ?_⟩
    · cases a with
      | processWorker => exact absurd rfl hne
      | wake timedOut => simp [uses, hw.stage]
      | construct => simp [uses]
      | push task => simp [uses]
      | stop => simp [uses]
    · cases hstep.symm.trans hw''
      rw [hw'.stage] at hr
      cases hr
    · cases hstep.symm.trans hw''
      exact halong

/-- What may be uninitialised when something is: the status, and with the mutex in order
the queue is empty. -/
theorem Unstarted.cases {w : Worker τ} (hw : Unstarted w) (hne : w.uninitialised ≠ []) :
    .mutex ∈ w.uninitialised ∨
      (w.mutex = false ∧ w.queue = [] ∧ .status ∈ w.uninitialised) := by
  have hmembers := hw.members
  simp only [declared, List.suffix_cons_iff, List.suffix_nil] at hmembers
  obtain h | h | h | h | h := hmembers
  · exact Or.inl (by simp [h])
  · exact Or.inl (by simp [h])
  · exact Or.inr ⟨hw.mutex (by simp [h]), hw.queue (by simp [h]) hne, by simp [h]⟩
  · exact Or.inr ⟨hw.mutex (by simp [h]), hw.queue (by simp [h]) hne, by simp [h]⟩
  · exact absurd h hne

/-- Started too early, the thread uses a member that is not there: the mutex, or the status
in the predicate of its first wait. -/
theorem not_proper_of_early {w : Worker τ} (hw : Unstarted w) (hne : w.uninitialised ≠ []) :
    ¬ Along step Proper w [.processWorker, .processWorker, .processWorker] := by
  intro h
  have hstage := hw.stage
  obtain hmutex | ⟨hmutex, hqueue, hstatus⟩ := hw.cases hne
  · exact h.1.1 .mutex (by simp [uses, hstage]) hmutex
  · have hlock : step w .processWorker = some { w with mutex := true, stage := .testing false } := by
      simp [step, processWorker, hstage, hmutex]
    have htest : step { w with mutex := true, stage := .testing false } .processWorker =
        some { w with mutex := true, stage := .testingStatus false } := by
      simp [step, processWorker, hqueue]
    have hread := ((h.2 _ hlock).2 _ htest).1
    exact hread.1 .status List.mem_cons_self hstatus

/-- Whatever the memory held and whatever comes in between, the thread uses initialised
members and returns only when told to, exactly when its first operation comes after the
initialisation of the last member. -/
theorem returns_when_told_iff {queue : List τ} {mutex : Bool} {status : UInt8}
    {pre : List (Action τ)} {s : Worker τ} (hpre : .processWorker ∉ pre)
    (hrun : run step (allocated queue mutex status) pre = some s) :
    (∀ post, Along step Proper (allocated queue mutex status) (pre ++ .processWorker :: post)) ↔
      s.uninitialised = [] := by
  obtain ⟨hs, halong⟩ := unstarted_run (unstarted_allocated queue mutex status) hpre hrun
  constructor
  · intro h
    by_contra hne
    exact not_proper_of_early hs hne
      ((along_append hrun).mp (h [.processWorker, .processWorker])).2
  · intro hmembers post
    have hbuilt : Built s := ⟨hmembers, hs.status hmembers, fun hr => by
      rw [hs.stage] at hr
      cases hr⟩
    exact (along_append hrun).mpr ⟨halong, along_of_invariant (fun s a hs => proper_of_built hs a)
      (fun s a s' hs h => built_step hs h) hbuilt _⟩

/-- The thread gets to the status before the constructor and finds the byte of `Stopped`. -/
theorem garbage_status_returns : ∃ s : Worker Nat,
    run step (allocated [] false stopped) [.construct, .construct, .processWorker, .processWorker,
      .processWorker, .processWorker] = some s ∧
    s.stage = .returned ∧ s.stopCalled = false ∧ s.uninitialised = [.cv, .status] ∧
    ¬ ∀ post : List (Action Nat), Along step Proper (allocated [] false stopped)
      ([.construct, .construct] ++ .processWorker :: post) := by
  refine ⟨_, rfl, rfl, rfl, rfl, fun h => ?_⟩
  have hpre : Action.processWorker ∉ [.construct, (.construct : Action Nat)] := by simp
  have hearly := unstarted_run (unstarted_allocated [] false stopped) hpre rfl
  exact not_proper_of_early hearly.1 (List.cons_ne_nil _ _)
    ((along_append rfl).mp (h [.processWorker, .processWorker])).2

/-- The thread starts when the worker is complete, even with a task in its queue. -/
theorem returns_when_told_iff_complete : ∃ s : Worker Nat,
    run step (allocated [7] true stopped) [.construct, .construct, .construct, .construct,
      .push 3] = some s ∧ s.queue = [3] ∧
    ∀ post : List (Action Nat), Along step Proper (allocated [7] true stopped)
      ([.construct, .construct, .construct, .construct, .push 3] ++ .processWorker :: post) :=
  ⟨_, rfl, rfl, (returns_when_told_iff (by simp) rfl).mpr rfl⟩

end RoutineHttp.WorkerConstruction
