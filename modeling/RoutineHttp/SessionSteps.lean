import RoutineHttp.HttpSession
import RoutineHttp.Lib.Runs
import RoutineHttp.Lib.WriteQueue

/-! A session as a machine whose threads take turns: the task of a request on a CPU thread,
timeout handlers and write completions on the IO threads. Reading is one step, which hands
over some request; what it makes of the bytes is the subject of the request loop. -/
namespace RoutineHttp.SessionSteps
open HttpSession

/-- What a call of `close` does next. -/
inductive CloseStage where
  | check | cancel | shutdown | close
  deriving DecidableEq, Repr

inductive Phase where
  | reading
  | queued (request : Request)
  | sending (request : Request) (text : Str)
  | responded (request : Request)
  | closing (stage : CloseStage)
  | finished
  | crashed

def Phase.isCrashed : Phase → Bool
  | .crashed => true
  | _ => false

/-- The socket, the timeout timer with a wait on it or handlers already queued, the calls of
`close` that such handlers are in, and the writes. -/
structure Session where
  phase : Phase := .reading
  isOpen : Bool := true
  isShut : Bool := false
  armed : Bool := true
  expired : Nat := 0
  closers : List CloseStage := []
  writes : Lib.WriteQueue Char := {}

inductive Action where
  | handed (request : Request)
  | sendResponse (now : Tm)
  | issue
  | next
  | closeStep
  | expire
  | timeout
  | closerStep (i : Nat)
  | transmit (count : Nat)

def abortWrites (s : Session) : Session :=
  { s with writes := { s.writes with outstanding := [] } }

/-- One operation of `close` and the one after it. `cancel` throws on a closed socket, which
ends the process; the errors of the other two are ignored. -/
def closeOperation (s : Session) : CloseStage → Option (Session × Option CloseStage)
  | .check => some (s, if s.isOpen then some .cancel else none)
  | .cancel => if s.isOpen then some (abortWrites s, some .shutdown) else none
  | .shutdown => some ({ s with isShut := true }, some .close)
  | .close => some ({ abortWrites s with isOpen := false }, none)

/-- The text of the response to a request, if it has one. -/
def responseText (sch : Scheduler) (request : Request) (now : Tm) : Option Str :=
  match (respond sch request).2.2.prepareResponse now sch.headerOrder with
  | .ok sent => some sent.1
  | .error _ => none

def passUnwritten (s : Session) (text : Str) : Session :=
  { s with writes := { s.writes with passed := s.writes.passed ++ [text] } }

def issueWrite (s : Session) (text : Str) : Session :=
  { s with writes := { s.writes with
      passed := s.writes.passed ++ [text]
      outstanding := s.writes.outstanding ++ [(s.writes.passed.length, text)] } }

/-- `send_response` up to the start of the write: on a closed socket it gives up, a
response without text throws. -/
def sendStep (sch : Scheduler) (s : Session) (request : Request) (now : Tm) : Session :=
  match s.isOpen, responseText sch request now with
  | true, some text => { s with phase := .sending request text }
  | true, none => { s with phase := .crashed }
  | false, some text => { passUnwritten s text with phase := .responded request }
  | false, none => { s with phase := .responded request }

/-- The end of a task: a close, or the next call of `run_process`, which does not read from
a closed socket. -/
def nextStep (s : Session) (request : Request) : Session :=
  if asksClose request.headers then { s with phase := .closing .check }
  else if s.isOpen then { s with phase := .reading, armed := true }
  else { s with phase := .finished, armed := false }

def closeStep (s : Session) (stage : CloseStage) : Session :=
  match closeOperation s stage with
  | none => { s with phase := .crashed }
  | some (s', none) => { s' with phase := .finished }
  | some (s', some stage') => { s' with phase := .closing stage' }

def closerStep (s : Session) (i : Nat) (stage : CloseStage) : Session :=
  match closeOperation s stage with
  | none => { s with phase := .crashed }
  | some (s', none) => { s' with closers := s.closers.eraseIdx i }
  | some (s', some stage') => { s' with closers := s.closers.set i stage' }

def step (sch : Scheduler) (s : Session) : Action → Option Session
  | .handed request => match s.phase with
    | .reading =>
      some { s with phase := if s.isOpen then .queued request else .finished, armed := false }
    | _ => none
  | .sendResponse now => match s.phase with
    | .queued request => some (sendStep sch s request now)
    | _ => none
  | .issue => match s.phase with
    | .sending request text =>
      some { (if s.isOpen then issueWrite s text else passUnwritten s text) with
        phase := .responded request, armed := true }
    | _ => none
  | .next => match s.phase with
    | .responded request => some (nextStep s request)
    | _ => none
  | .closeStep => match s.phase with
    | .closing stage => some (closeStep s stage)
    | _ => none
  -- the threads besides the task's, as long as the process runs
  | .expire => if s.armed && !s.phase.isCrashed then
      some { s with armed := false, expired := s.expired + 1 } else none
  | .timeout => if 0 < s.expired && !s.phase.isCrashed then
      some { s with expired := s.expired - 1, closers := s.closers ++ [.check] } else none
  | .closerStep i => if s.phase.isCrashed then none else s.closers[i]?.map (closerStep s i)
  | .transmit count => if s.isOpen && !s.isShut && !s.phase.isCrashed then
      (s.writes.step (.transmit count)).map fun writes => { s with writes } else none

/-- Everything a step can do. -/
theorem step_cases {sch : Scheduler} {s t : Session} {a : Action} (h : step sch s a = some t) :
    match a with
    | .handed request => s.phase = .reading ∧
        t = { s with phase := if s.isOpen then .queued request else .finished, armed := false }
    | .sendResponse now => ∃ request, s.phase = .queued request ∧ t = sendStep sch s request now
    | .issue => ∃ request text, s.phase = .sending request text ∧
        t = { (if s.isOpen then issueWrite s text else passUnwritten s text) with
          phase := .responded request, armed := true }
    | .next => ∃ request, s.phase = .responded request ∧ t = nextStep s request
    | .closeStep => ∃ stage, s.phase = .closing stage ∧ t = closeStep s stage
    | .expire => t = { s with armed := false, expired := s.expired + 1 }
    | .timeout => t = { s with expired := s.expired - 1, closers := s.closers ++ [.check] }
    | .closerStep i => ∃ stage, s.closers[i]? = some stage ∧ t = closerStep s i stage
    | .transmit count => s.isOpen = true ∧ ∃ writes,
        s.writes.step (.transmit count) = some writes ∧ t = { s with writes } := by
  cases a with
  | handed request =>
    simp only [step] at h
    split at h
    · next hp => exact ⟨hp, (Option.some.inj h).symm⟩
    · cases h
  | sendResponse now =>
    simp only [step] at h
    split at h
    · next request hp => exact ⟨request, hp, (Option.some.inj h).symm⟩
    · cases h
  | issue =>
    simp only [step] at h
    split at h
    · next request text hp => exact ⟨request, text, hp, (Option.some.inj h).symm⟩
    · cases h
  | next =>
    simp only [step] at h
    split at h
    · next request hp => exact ⟨request, hp, (Option.some.inj h).symm⟩
    · cases h
  | closeStep =>
    simp only [step] at h
    split at h
    · next stage hp => exact ⟨stage, hp, (Option.some.inj h).symm⟩
    · cases h
  | expire =>
    simp only [step] at h
    split at h
    · exact (Option.some.inj h).symm
    · cases h
  | timeout =>
    simp only [step] at h
    split at h
    · exact (Option.some.inj h).symm
    · cases h
  | closerStep i =>
    simp only [step] at h
    split at h
    · cases h
    · obtain ⟨stage, hstage, rfl⟩ := Option.map_eq_some_iff.mp h
      exact ⟨stage, hstage, rfl⟩
  | transmit count =>
    simp only [step] at h
    split at h
    · next hopen =>
      obtain ⟨writes, hwrites, rfl⟩ := Option.map_eq_some_iff.mp h
      rw [Bool.and_eq_true_iff, Bool.and_eq_true_iff] at hopen
      exact ⟨hopen.1.1, writes, hwrites, rfl⟩
    · cases h

theorem responseText_length {sch : Scheduler} {request : Request} {now : Tm} {text : Str}
    (h : responseText sch request now = some text) : 9 ≤ text.length := by
  unfold responseText at h
  split at h
  · next sent hsent =>
    cases h
    exact (Response.length_statusLine _).trans (Response.prepareResponse_text hsent).length_le
  · cases h

/-- What an operation of `close` does to the writes. -/
def closeWrites (s : Session) : CloseStage → Option (Lib.WriteStep Char)
  | .check => none
  | .cancel => if s.isOpen then some .abort else none
  | .shutdown => none
  | .close => some .abort

/-- What an action does to the writes. -/
def writeStep (sch : Scheduler) (s : Session) : Action → Option (Lib.WriteStep Char)
  | .sendResponse now => match s.phase with
    | .queued request => if s.isOpen then none else (responseText sch request now).map .drop
    | _ => none
  | .issue => match s.phase with
    | .sending _ text => some (if s.isOpen then .issue text else .drop text)
    | _ => none
  | .closeStep => match s.phase with
    | .closing stage => closeWrites s stage
    | _ => none
  | .closerStep i => s.closers[i]?.bind (closeWrites s)
  | .transmit count => some (.transmit count)
  | _ => none

/-- The writes after an action, in terms of the queue alone. -/
def WritesFollow (q q' : Lib.WriteQueue Char) : Option (Lib.WriteStep Char) → Prop
  | none => q' = q
  | some w => q.step w = some q'

theorem closeStep_writes (s : Session) (stage : CloseStage) :
    WritesFollow s.writes (closeStep s stage).writes (closeWrites s stage) := by
  cases ho : s.isOpen <;> cases stage <;>
    simp [closeStep, closeOperation, closeWrites, WritesFollow, Lib.WriteQueue.step, abortWrites, ho]

theorem closerStep_writes (s : Session) (i : Nat) (stage : CloseStage) :
    WritesFollow s.writes (closerStep s i stage).writes (closeWrites s stage) := by
  cases ho : s.isOpen <;> cases stage <;>
    simp [closerStep, closeOperation, closeWrites, WritesFollow, Lib.WriteQueue.step, abortWrites, ho]

theorem sendStep_writes (sch : Scheduler) (s : Session) (request : Request) (now : Tm) :
    WritesFollow s.writes (sendStep sch s request now).writes
      (if s.isOpen then none else (responseText sch request now).map .drop) := by
  cases ho : s.isOpen <;> cases ht : responseText sch request now <;>
    simp [sendStep, WritesFollow, Lib.WriteQueue.step, passUnwritten, ho, ht]

theorem step_writes {sch : Scheduler} {s t : Session} {a : Action} (h : step sch s a = some t) :
    WritesFollow s.writes t.writes (writeStep sch s a) := by
  have hcases := step_cases h
  cases a with
  | handed request =>
    obtain ⟨hp, rfl⟩ := hcases
    rfl
  | sendResponse now =>
    obtain ⟨request, hp, rfl⟩ := hcases
    simpa [writeStep, hp] using sendStep_writes sch s request now
  | issue =>
    obtain ⟨request, text, hp, rfl⟩ := hcases
    cases ho : s.isOpen <;>
      simp [writeStep, hp, ho, WritesFollow, Lib.WriteQueue.step, issueWrite, passUnwritten]
  | next =>
    obtain ⟨request, hp, rfl⟩ := hcases
    have hsame : (nextStep s request).writes = s.writes := by
      unfold nextStep
      split
      · rfl
      · split <;> rfl
    exact hsame
  | closeStep =>
    obtain ⟨stage, hp, rfl⟩ := hcases
    simpa [writeStep, hp] using closeStep_writes s stage
  | expire =>
    rw [hcases]
    rfl
  | timeout =>
    rw [hcases]
    rfl
  | closerStep i =>
    obtain ⟨stage, hstage, rfl⟩ := hcases
    simpa [writeStep, hstage] using closerStep_writes s i stage
  | transmit count =>
    obtain ⟨-, writes, hwrites, rfl⟩ := hcases
    exact hwrites

end RoutineHttp.SessionSteps
