import RoutineHttp.Lib.Runs
import RoutineHttp.Lib.Shares
import Mathlib.Algebra.Order.Group.Multiset

/-! The thread pool as a machine: the threads in the calls of `push`, `run` and `stop` and
the worker threads take turns. `run` and `stop` do not overlap another call. -/
namespace RoutineHttp

inductive WorkerStatus where
  | working | stopped
  deriving DecidableEq, Repr

/-- Where the thread of a worker is in `process_worker`: at the head of the loop, behind the
check of the status with the mutex held, in a task, or returned. -/
inductive WorkerStage (τ : Type*) where
  | idle
  | checked
  | running (task : τ)
  | exited

structure CpuThreadWorker (τ : Type*) where
  status : WorkerStatus
  queue : List τ := []
  stage : WorkerStage τ := .idle

/-- How far a call of `push` has come. The sizes of the queues are read without their mutex,
one at a time; an index with a number is the least loaded worker so far. -/
inductive PushStage where
  | inline
  | probe (i best count : Nat)
  | compare (i best count : Nat)
  | record (i : Nat)
  | enqueue (best : Nat)

structure Push (τ : Type*) where
  task : τ
  stage : PushStage

/-- The calls in progress. A call of `run` is between two workers or in the constructor of
one, whose thread runs before its status is set. -/
inductive PoolCall (τ : Type*) where
  | pushes (pushes : List (Push τ))
  | starting (n : Nat)
  | building (i n : Nat)
  | halting (i n : Nat)
  | joining (i n : Nat)
  | moving (stopped : List (CpuThreadWorker τ)) (push : Option (Push τ))

/-- The workers, the calls, and what has become of the tasks. -/
structure ThreadPool (τ : Type*) where
  threads : List (CpuThreadWorker τ) := []
  call : PoolCall τ := .pushes []
  pushed : Multiset τ := 0
  executed : Multiset τ := 0
  discarded : Multiset τ := 0

variable {τ : Type*}

namespace CpuThreadWorker

def running (w : CpuThreadWorker τ) : Multiset τ :=
  match w.stage with
  | .running task => {task}
  | _ => 0

def waiting (w : CpuThreadWorker τ) : Multiset τ := w.queue

def holdsMutex (w : CpuThreadWorker τ) : Bool :=
  match w.stage with
  | .checked => true
  | _ => false

def hasExited (w : CpuThreadWorker τ) : Bool :=
  match w.stage with
  | .exited => true
  | _ => false

/-- The next step of `process_worker` and the task that has been executed in it, if any. -/
def processWorker (w : CpuThreadWorker τ) : Option (CpuThreadWorker τ × Option τ) :=
  match w.stage with
  | .idle => some ({ w with stage := if w.status = .stopped then .exited else .checked }, none)
  | .checked => match w.queue with
    | [] => some ({ w with stage := .idle }, none)
    | task :: queue => some ({ w with queue, stage := .running task }, none)
  | .running task => some ({ w with stage := .idle }, some task)
  | .exited => none

def enqueue (w : CpuThreadWorker τ) (task : τ) : CpuThreadWorker τ :=
  { w with queue := w.queue ++ [task] }

end CpuThreadWorker

namespace Push

def start (threads : List (CpuThreadWorker τ)) (task : τ) : Push τ :=
  { task, stage := match threads with
    | [] => .inline
    | w :: _ => .probe 0 0 w.queue.length }

/-- The search for the least loaded worker: an empty queue ends it at once. -/
def search (threads : List (CpuThreadWorker τ)) : PushStage → Option PushStage
  | .probe i best count => match threads[i]? with
    | none => some (.enqueue best)
    | some w => some (if w.queue.isEmpty then .enqueue i else .compare i best count)
  | .compare i best count => threads[i]?.map fun w =>
    if w.queue.length < count then .record i else .probe (i + 1) best count
  | .record i => threads[i]?.map fun w => .probe (i + 1) i w.queue.length
  | .inline => none
  | .enqueue _ => none

end Push

/-- What a step of a push leaves: the workers, the rest of the push, and the task where it
has been executed. -/
structure PushResult (τ : Type*) where
  threads : List (CpuThreadWorker τ)
  rest : Option (Push τ)
  executed : Option τ := none

def Push.step (threads : List (CpuThreadWorker τ)) (p : Push τ) : Option (PushResult τ) :=
  match p.stage with
  | .inline => some { threads, rest := none, executed := some p.task }
  | .enqueue best => threads[best]?.bind fun w =>
    if w.holdsMutex then none
    else some { threads := threads.set best (w.enqueue p.task), rest := none }
  | stage => (Push.search threads stage).map fun stage =>
    { threads, rest := some { p with stage } }

/-- Everything a step of a push can do: it searches on, executes the task where the pool is
empty, or enqueues it. -/
theorem Push.step_cases {threads : List (CpuThreadWorker τ)} {p : Push τ} {r : PushResult τ}
    (h : p.step threads = some r) :
    (∃ stage, Push.search threads p.stage = some stage ∧
        r = { threads, rest := some { p with stage } }) ∨
      (p.stage = .inline ∧ r = { threads, rest := none, executed := some p.task }) ∨
      ∃ best w, p.stage = .enqueue best ∧ threads[best]? = some w ∧ w.holdsMutex = false ∧
        r = { threads := threads.set best (w.enqueue p.task), rest := none } := by
  unfold Push.step at h
  split at h
  · next hs => exact Or.inr (Or.inl ⟨hs, (Option.some.inj h).symm⟩)
  · next best hs =>
    obtain ⟨w, hw, h⟩ := Option.bind_eq_some_iff.mp h
    split at h
    · cases h
    · next hm =>
      exact Or.inr (Or.inr ⟨best, w, hs, hw, Bool.not_eq_true _ ▸ hm, (Option.some.inj h).symm⟩)
  · obtain ⟨stage, hstage, rfl⟩ := Option.map_eq_some_iff.mp h
    exact Or.inl ⟨stage, hstage, rfl⟩

namespace ThreadPool

inductive Action (τ : Type*) where
  | run (n : Nat)
  | push (task : τ)
  | stop (n : Nat)
  | spawn (status : WorkerStatus)
  | pushStep (j : Nat)
  | callStep
  | worker (i : Nat)

def after (s : ThreadPool τ) (r : PushResult τ) (call : PoolCall τ) : ThreadPool τ :=
  { s with threads := r.threads, call, executed := s.executed + Multiset.ofList r.executed.toList }

/-- The end of the loop of `stop`: the stopped workers are erased, and their tasks are moved
if a worker is left. -/
def erase (s : ThreadPool τ) (n : Nat) : ThreadPool τ :=
  match s.threads.drop n with
  | [] => { s with
      threads := [], call := .pushes []
      discarded := s.discarded + Lib.total CpuThreadWorker.waiting (s.threads.take n) }
  | w :: rest => { s with threads := w :: rest, call := .moving (s.threads.take n) none }

/-- The next step of a call of `run` or `stop`, but for the start of a thread. -/
def callStep (s : ThreadPool τ) : Option (ThreadPool τ) :=
  match s.call with
  | .pushes _ => none
  | .starting 0 => some { s with call := .pushes [] }
  | .starting (_ + 1) => none
  | .building i n => s.threads[i]?.map fun w =>
    { s with threads := s.threads.set i { w with status := .working }, call := .starting n }
  | .halting i n => if i < n then s.threads[i]?.map fun w =>
      { s with threads := s.threads.set i { w with status := .stopped }, call := .joining i n }
    else some (s.erase n)
  | .joining i n => s.threads[i]?.bind fun w =>
    if w.hasExited then some { s with call := .halting (i + 1) n } else none
  | .moving [] none => some { s with call := .pushes [] }
  | .moving (w :: stopped) none => match w.queue with
    | [] => some { s with call := .moving stopped none }
    | task :: queue => some { s with
        call := .moving ({ w with queue } :: stopped) (some (Push.start s.threads task)) }
  | .moving stopped (some p) => (p.step s.threads).map fun r => s.after r (.moving stopped r.rest)

def step (s : ThreadPool τ) : Action τ → Option (ThreadPool τ)
  | .run n => match s.call with
    | .pushes [] => some { s with call := .starting n }
    | _ => none
  | .push task => match s.call with
    | .pushes pushes => some { s with
        call := .pushes (pushes ++ [Push.start s.threads task]), pushed := s.pushed + {task} }
    | _ => none
  | .stop n => match s.call with
    | .pushes [] => some { s with call := .halting 0 (min n s.threads.length) }
    | _ => none
  -- the status is what the memory holds before it is initialised
  | .spawn status => match s.call with
    | .starting (n + 1) => some { s with
        threads := s.threads ++ [{ status }], call := .building s.threads.length n }
    | _ => none
  | .pushStep j => match s.call with
    | .pushes pushes => pushes[j]?.bind fun p => (p.step s.threads).map fun r =>
        s.after r (.pushes (match r.rest with
          | none => pushes.eraseIdx j
          | some p' => pushes.set j p'))
    | _ => none
  | .callStep => s.callStep
  | .worker i => s.threads[i]?.bind fun w => w.processWorker.map fun (w', task) => { s with
      threads := s.threads.set i w', executed := s.executed + Multiset.ofList task.toList }

/-- Everything a step can do. -/
theorem step_cases {s t : ThreadPool τ} {a : Action τ} (h : step s a = some t) :
    match a with
    | .run n => s.call = .pushes [] ∧ t = { s with call := .starting n }
    | .push task => ∃ pushes, s.call = .pushes pushes ∧ t = { s with
        call := .pushes (pushes ++ [Push.start s.threads task]), pushed := s.pushed + {task} }
    | .stop n => s.call = .pushes [] ∧ t = { s with call := .halting 0 (min n s.threads.length) }
    | .spawn status => ∃ n, s.call = .starting (n + 1) ∧ t = { s with
        threads := s.threads ++ [{ status }], call := .building s.threads.length n }
    | .pushStep j => ∃ pushes p r, s.call = .pushes pushes ∧ pushes[j]? = some p ∧
        p.step s.threads = some r ∧ t = s.after r (.pushes (match r.rest with
          | none => pushes.eraseIdx j
          | some p' => pushes.set j p'))
    | .callStep => s.callStep = some t
    | .worker i => ∃ w w' task, s.threads[i]? = some w ∧ w.processWorker = some (w', task) ∧
        t = { s with
          threads := s.threads.set i w', executed := s.executed + Multiset.ofList task.toList } := by
  cases a with
  | run n =>
    simp only [step] at h
    split at h
    · next hc => exact ⟨hc, (Option.some.inj h).symm⟩
    · cases h
  | push task =>
    simp only [step] at h
    split at h
    · next pushes hc => exact ⟨pushes, hc, (Option.some.inj h).symm⟩
    · cases h
  | stop n =>
    simp only [step] at h
    split at h
    · next hc => exact ⟨hc, (Option.some.inj h).symm⟩
    · cases h
  | spawn status =>
    simp only [step] at h
    split at h
    · next n hc => exact ⟨n, hc, (Option.some.inj h).symm⟩
    · cases h
  | pushStep j =>
    simp only [step] at h
    split at h
    · next pushes hc =>
      obtain ⟨p, hp, h⟩ := Option.bind_eq_some_iff.mp h
      obtain ⟨r, hr, rfl⟩ := Option.map_eq_some_iff.mp h
      exact ⟨pushes, p, r, hc, hp, hr, rfl⟩
    · cases h
  | callStep => exact h
  | worker i =>
    obtain ⟨w, hw, h⟩ := Option.bind_eq_some_iff.mp h
    obtain ⟨⟨w', task⟩, hw', rfl⟩ := Option.map_eq_some_iff.mp h
    exact ⟨w, w', task, hw, hw', rfl⟩

/-- Everything a step of `run` or `stop` can do. -/
theorem callStep_cases {s t : ThreadPool τ} (h : s.callStep = some t) :
    match s.call with
    | .pushes _ => False
    | .starting 0 => t = { s with call := .pushes [] }
    | .starting (_ + 1) => False
    | .building i n => ∃ w, s.threads[i]? = some w ∧
        t = { s with threads := s.threads.set i { w with status := .working }, call := .starting n }
    | .halting i n => (n ≤ i ∧ t = s.erase n) ∨ i < n ∧ ∃ w, s.threads[i]? = some w ∧
        t = { s with threads := s.threads.set i { w with status := .stopped }, call := .joining i n }
    | .joining i n => ∃ w, s.threads[i]? = some w ∧ w.hasExited = true ∧
        t = { s with call := .halting (i + 1) n }
    | .moving [] none => t = { s with call := .pushes [] }
    | .moving (w :: stopped) none => (w.queue = [] ∧ t = { s with call := .moving stopped none }) ∨
        ∃ task queue, w.queue = task :: queue ∧ t = { s with
          call := .moving ({ w with queue } :: stopped) (some (Push.start s.threads task)) }
    | .moving stopped (some p) => ∃ r, p.step s.threads = some r ∧
        t = s.after r (.moving stopped r.rest) := by
  unfold callStep at h
  split at h
  · cases h
  · exact (Option.some.inj h).symm
  · cases h
  · obtain ⟨w, hw, rfl⟩ := Option.map_eq_some_iff.mp h
    exact ⟨w, hw, rfl⟩
  · next i n hc =>
    split at h
    · next hi =>
      obtain ⟨w, hw, rfl⟩ := Option.map_eq_some_iff.mp h
      exact Or.inr ⟨hi, w, hw, rfl⟩
    · next hi => exact Or.inl ⟨Nat.not_lt.mp hi, (Option.some.inj h).symm⟩
  · next i n hc =>
    obtain ⟨w, hw, h⟩ := Option.bind_eq_some_iff.mp h
    split at h
    · next hexited => exact ⟨w, hw, hexited, (Option.some.inj h).symm⟩
    · cases h
  · exact (Option.some.inj h).symm
  · next w stopped hc =>
    split at h
    · next hq => exact Or.inl ⟨hq, (Option.some.inj h).symm⟩
    · next task queue hq => exact Or.inr ⟨task, queue, hq, (Option.some.inj h).symm⟩
  · next stopped p hc =>
    obtain ⟨r, hr, rfl⟩ := Option.map_eq_some_iff.mp h
    cases stopped <;> exact ⟨r, hr, rfl⟩

/-- A step of a push that a stop makes is the step of any push. -/
theorem callStep_push {s t : ThreadPool τ} {stopped : List (CpuThreadWorker τ)} {p : Push τ}
    (hc : s.call = .moving stopped (some p)) (h : s.callStep = some t) :
    ∃ r, p.step s.threads = some r ∧ t = s.after r (.moving stopped r.rest) := by
  have hcases := callStep_cases h
  rw [hc] at hcases
  cases stopped <;> exact hcases

end ThreadPool
end RoutineHttp
