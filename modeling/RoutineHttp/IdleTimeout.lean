import RoutineHttp.BodyLength
import RoutineHttp.SessionSteps

/-! The idle timer of a session. The chain of calls from `run_process` to the next one, the
arming of the timer behind a read that has already been started, the expiry of a wait, and
the timeout handlers take turns in every order. -/
namespace RoutineHttp.IdleTimeout
open HttpSession BodyLength Lib
open SessionSteps (CloseStage responseText)

inductive Purpose where
  | head | body | response
  deriving DecidableEq, Repr

/-- A wait on the timer: what it was armed for, and for which read of the session. -/
structure Wait where
  purpose : Purpose
  round : Nat
  deriving DecidableEq, Repr

/-- Where the chain of calls is. -/
inductive Phase where
  | starting
  | opening
  | reading
  | accepted (ec : ErrorCode) (str buffer : Str)
  | readingBody (request : Request) (buffer : Str)
  | handing (ec : ErrorCode) (request : Option Request)
  | queued (request : Option Request)
  | sending (request : Request)
  | responded (request : Request)
  | closing (stage : CloseStage) (next : Phase)
  | dropped
  | finished
  | crashed

/-- The reads whose start has been followed by no `run_timeout_timer` yet, the pending wait,
the handlers queued with success, and the calls of `close` that such handlers are in. -/
structure Session where
  phase : Phase := .starting
  isOpen : Bool := true
  round : Nat := 0
  arming : List Nat := []
  pending : Option Wait := none
  expired : List Wait := []
  closers : List (Wait × CloseStage) := []

inductive Action where
  | proceed
  | headRead (ec : ErrorCode) (str buffer : Str)
  | bodyRead (ec : ErrorCode) (read : Str)
  | sendResponse (now : Tm)
  | arm (i : Nat)
  | expire
  | timeout (i : Nat)
  | closer (i : Nat)

def notConnected : ErrorCode := 107

def Phase.isCrashed : Phase → Bool
  | .crashed => true
  | _ => false

/-- A request has been accepted and `send_response` has not been called for it. -/
def Phase.inProgress : Phase → Bool
  | .accepted ec _ _ => ec == 0
  | .readingBody _ _ => true
  | .handing _ request => request.isSome
  | .queued request => request.isSome
  | .closing _ next => next.inProgress
  | .dropped => true
  | _ => false

/-- `cancel` and `expires_after` take the pending wait off; queued handlers stay. -/
def cancelTimer (s : Session) : Session := { s with pending := none }

def runTimeoutTimer (s : Session) (wait : Wait) : Session := { s with pending := some wait }

/-- `is_errors`: with an error it closes, with an ignored one or none it looks at the socket. -/
def checkErrors (s : Session) (ec : ErrorCode) (failed fine : Phase) : Session :=
  { cancelTimer s with
    phase := if isErrors ec true then .closing .check failed
      else if isErrors ec s.isOpen then failed else fine }

/-- One operation of `close`: whether the socket is open behind it, and the next operation.
`cancel` throws on a closed socket. -/
def closeOperation (isOpen : Bool) : CloseStage → Option (Bool × Option CloseStage)
  | .check => some (isOpen, if isOpen then some .cancel else none)
  | .cancel => if isOpen then some (isOpen, some .shutdown) else none
  | .shutdown => some (isOpen, some .close)
  | .close => some (false, none)

def closeStep (s : Session) (stage : CloseStage) (next : Phase) : Session :=
  match closeOperation s.isOpen stage with
  | none => { s with phase := .crashed }
  | some (isOpen, none) => { s with isOpen, phase := next }
  | some (isOpen, some stage') => { s with isOpen, phase := .closing stage' next }

def closerStep (s : Session) (i : Nat) (wait : Wait) (stage : CloseStage) : Session :=
  match closeOperation s.isOpen stage with
  | none => { s with phase := .crashed }
  | some (isOpen, none) => { s with isOpen, closers := s.closers.eraseIdx i }
  | some (isOpen, some stage') => { s with isOpen, closers := s.closers.set i (wait, stage') }

def bodyWritten (sch : Scheduler) (request : Request) (body : Str) : Phase :=
  match request.body with
  | none => .crashed
  | some storage => .handing 0 (some { request with body := some (storage.write sch.fromString body) })

/-- `do_read_body` up to the blocking read of what is missing. -/
def startBody (sch : Scheduler) (s : Session) (request : Request) (buffer : Str) : Session :=
  match contentLength request.headers with
  | .error _ => { s with phase := .crashed }
  | .ok length =>
    if sizeSub length buffer.length > 0 then
      { runTimeoutTimer s ⟨.body, s.round⟩ with phase := .readingBody request buffer }
    else { s with phase := bodyWritten sch request buffer }

/-- The rest of the head's handler. A read that failed reports no bytes, and two less than
none is no size for a string. -/
def parse (sch : Scheduler) (s : Session) (ec : ErrorCode) (str buffer : Str) : Session :=
  if ec ≠ 0 then { s with phase := .crashed }
  else match Request.ofRaw str with
    | .error _ => { s with phase := .crashed }
    | .ok object =>
      if isChunked object.headers then { s with phase := .handing notSupported (some object) }
      else if hasLength object.headers then startBody sch s (doPrepareBody sch object).2 buffer
      else { s with phase := .handing 0 (some object) }

/-- The start of a read. The timer is armed behind it, when the head's handler may already
run on another thread. -/
def startRead (s : Session) : Session :=
  if s.isOpen then
    { s with phase := .reading, round := s.round + 1, arming := s.arming ++ [s.round + 1] }
  else { s with phase := .handing notConnected none }

/-- The next step of the chain where it does not wait for anything. -/
def proceed (sch : Scheduler) (s : Session) : Phase → Option Session
  | .starting => some { cancelTimer s with phase := .opening }
  | .opening => some (startRead s)
  | .accepted ec str buffer => some (parse sch s ec str buffer)
  | .handing ec request =>
    some (checkErrors s ec (if request.isSome then .dropped else .finished) (.queued request))
  | .sending request =>
    some { runTimeoutTimer s ⟨.response, s.round⟩ with phase := .responded request }
  | .responded request =>
    some { s with phase := if asksClose request.headers then .closing .check .finished
      else .starting }
  | .closing stage next => some (closeStep s stage next)
  | _ => none

/-- The task up to the start of the write: without a request its path cannot be read, a
response without text throws, on a closed socket nothing is written. -/
def responsePhase (sch : Scheduler) (isOpen : Bool) (now : Tm) : Option Request → Phase
  | none => .crashed
  | some request =>
    if isOpen then if (responseText sch request now).isSome then .sending request else .crashed
    else .responded request

def move (sch : Scheduler) (s : Session) : Action → Option Session
  | .proceed => proceed sch s s.phase
  | .headRead ec str buffer => match s.phase with
    | .reading => some (checkErrors s ec (.handing ec none) (.accepted ec str buffer))
    | _ => none
  | .bodyRead ec read => match s.phase with
    | .readingBody request buffer => some (checkErrors s ec (.handing ec (some request))
      (bodyWritten sch request (buffer ++ read)))
    | _ => none
  | .sendResponse now => match s.phase with
    | .queued request => some { s with phase := responsePhase sch s.isOpen now request }
    | _ => none
  | .arm i => s.arming[i]?.map fun round =>
    { runTimeoutTimer s ⟨.head, round⟩ with arming := s.arming.eraseIdx i }
  | .expire => s.pending.map fun wait =>
    { cancelTimer s with expired := s.expired ++ [wait] }
  | .timeout i => s.expired[i]?.map fun wait =>
    { s with expired := s.expired.eraseIdx i, closers := s.closers ++ [(wait, .check)] }
  | .closer i => s.closers[i]?.map fun closer => closerStep s i closer.1 closer.2

def step (sch : Scheduler) (s : Session) (a : Action) : Option Session :=
  if s.phase.isCrashed then none else move sch s a

/-- A session whose `run_process` has been called. -/
def initial (isOpen : Bool) : Session := { isOpen }

/-- The wait the timer is armed with for the present read. -/
def headWait (s : Session) : Wait := ⟨.head, s.round⟩

/-- The waits that may still lead to a close. -/
def remaining (s : Session) : List Wait :=
  s.arming.map (Wait.mk .head) ++ s.pending.toList ++ s.expired ++ s.closers.map Prod.fst

/-- The head's handler runs with success and finds the socket open. -/
def Accepts (s : Session) (a : Action) : Prop :=
  s.phase = .reading ∧ s.isOpen = true ∧ ∃ str buffer, a = .headRead 0 str buffer

/-- A timeout handler armed for the read of the request in progress has come to this
operation of `close`, and the socket is open. -/
def Closing (s : Session) (i : Nat) (stage : CloseStage) : Prop :=
  s.phase.inProgress = true ∧ s.isOpen = true ∧ s.closers[i]? = some (headWait s, stage)

/-- Such a handler closes the socket. -/
def Kills (s : Session) (a : Action) : Prop := ∃ i, a = .closer i ∧ Closing s i .close

/-- Some order of what is left to run makes such a handler close the socket. -/
def Endangered (sch : Scheduler) (s : Session) : Prop :=
  ∃ actions t a, run (step sch) s actions = some t ∧
    Along (step sch) (fun s _ => s.phase.inProgress = true) s actions ∧ Kills t a

/-- It is the `close` of the machine with the writes, seen from the socket alone. -/
theorem closeOperation_eq (s : SessionSteps.Session) (stage : CloseStage) :
    closeOperation s.isOpen stage =
      (SessionSteps.closeOperation s stage).map fun result => (result.1.isOpen, result.2) := by
  cases hopen : s.isOpen <;> cases stage <;>
    simp [closeOperation, SessionSteps.closeOperation, SessionSteps.abortWrites, hopen]

/-- Everything a step can do. -/
theorem step_cases {sch : Scheduler} {s t : Session} {a : Action} (h : step sch s a = some t) :
    match a with
    | .proceed => proceed sch s s.phase = some t
    | .headRead ec str buffer => s.phase = .reading ∧
        t = checkErrors s ec (.handing ec none) (.accepted ec str buffer)
    | .bodyRead ec read => ∃ request buffer, s.phase = .readingBody request buffer ∧
        t = checkErrors s ec (.handing ec (some request))
          (bodyWritten sch request (buffer ++ read))
    | .sendResponse now => ∃ request, s.phase = .queued request ∧
        t = { s with phase := responsePhase sch s.isOpen now request }
    | .arm i => ∃ round, s.arming[i]? = some round ∧
        t = { runTimeoutTimer s ⟨.head, round⟩ with arming := s.arming.eraseIdx i }
    | .expire => ∃ wait, s.pending = some wait ∧
        t = { cancelTimer s with expired := s.expired ++ [wait] }
    | .timeout i => ∃ wait, s.expired[i]? = some wait ∧
        t = { s with expired := s.expired.eraseIdx i, closers := s.closers ++ [(wait, .check)] }
    | .closer i => ∃ wait stage, s.closers[i]? = some (wait, stage) ∧
        t = closerStep s i wait stage := by
  have hmove : move sch s a = some t := by
    unfold step at h
    split at h
    · cases h
    · exact h
  cases a with
  | proceed => exact hmove
  | headRead ec str buffer =>
    simp only [move] at hmove
    split at hmove
    · next hp => exact ⟨hp, (Option.some.inj hmove).symm⟩
    · cases hmove
  | bodyRead ec read =>
    simp only [move] at hmove
    split at hmove
    · next request buffer hp => exact ⟨request, buffer, hp, (Option.some.inj hmove).symm⟩
    · cases hmove
  | sendResponse now =>
    simp only [move] at hmove
    split at hmove
    · next request hp => exact ⟨request, hp, (Option.some.inj hmove).symm⟩
    · cases hmove
  | arm i =>
    obtain ⟨round, hround, rfl⟩ := Option.map_eq_some_iff.mp hmove
    exact ⟨round, hround, rfl⟩
  | expire =>
    obtain ⟨wait, hwait, rfl⟩ := Option.map_eq_some_iff.mp hmove
    exact ⟨wait, hwait, rfl⟩
  | timeout i =>
    obtain ⟨wait, hwait, rfl⟩ := Option.map_eq_some_iff.mp hmove
    exact ⟨wait, hwait, rfl⟩
  | closer i =>
    obtain ⟨⟨wait, stage⟩, hcloser, rfl⟩ := Option.map_eq_some_iff.mp hmove
    exact ⟨wait, stage, hcloser, rfl⟩

theorem step_of_inProgress {sch : Scheduler} {s : Session} (hs : s.phase.inProgress = true)
    (a : Action) : step sch s a = move sch s a := by
  unfold step
  cases hp : s.phase <;> simp_all [Phase.isCrashed, Phase.inProgress]

/-- Where the wait of a read may be. -/
theorem mem_remaining {s : Session} {k : Nat} :
    ⟨.head, k⟩ ∈ remaining s ↔ k ∈ s.arming ∨ s.pending = some ⟨.head, k⟩ ∨
      ⟨.head, k⟩ ∈ s.expired ∨ ∃ stage, (⟨.head, k⟩, stage) ∈ s.closers := by
  simp [remaining]

theorem remaining_cancelTimer {s : Session} {k : Nat}
    (h : ⟨.head, k⟩ ∈ remaining (cancelTimer s)) : ⟨.head, k⟩ ∈ remaining s := by
  rw [mem_remaining] at h ⊢
  obtain h | h | h := h
  · exact Or.inl h
  · cases h
  · exact Or.inr (Or.inr h)

/-- Another wait takes the place of the pending one. -/
theorem remaining_runTimeoutTimer {s : Session} {wait : Wait} {k : Nat}
    (hne : wait.purpose ≠ .head) (h : ⟨.head, k⟩ ∈ remaining (runTimeoutTimer s wait)) :
    ⟨.head, k⟩ ∈ remaining s := by
  rw [mem_remaining] at h ⊢
  obtain h | h | h := h
  · exact Or.inl h
  · cases h
    exact absurd rfl hne
  · exact Or.inr (Or.inr h)

theorem remaining_closeStep (s : Session) (stage : CloseStage) (next : Phase) :
    remaining (closeStep s stage next) = remaining s := by
  unfold closeStep
  split <;> rfl

theorem remaining_startBody {sch : Scheduler} {s : Session} {request : Request} {buffer : Str}
    {k : Nat} (h : ⟨.head, k⟩ ∈ remaining (startBody sch s request buffer)) :
    ⟨.head, k⟩ ∈ remaining s := by
  unfold startBody at h
  split at h
  · exact h
  · split at h
    · exact remaining_runTimeoutTimer (by simp) h
    · exact h

theorem remaining_parse {sch : Scheduler} {s : Session} {ec : ErrorCode} {str buffer : Str}
    {k : Nat} (h : ⟨.head, k⟩ ∈ remaining (parse sch s ec str buffer)) :
    ⟨.head, k⟩ ∈ remaining s := by
  unfold parse at h
  split at h
  · exact h
  · split at h
    · exact h
    · split at h
      · exact h
      · split at h
        · exact remaining_startBody h
        · exact h

theorem remaining_closerStep {s : Session} {i k : Nat} {wait : Wait} {stage : CloseStage}
    (hi : s.closers[i]? = some (wait, stage)) (h : ⟨.head, k⟩ ∈ remaining (closerStep s i wait stage)) :
    ⟨.head, k⟩ ∈ remaining s := by
  unfold closerStep at h
  split at h
  · exact h
  · rw [mem_remaining] at h ⊢
    refine h.imp_right (Or.imp_right (Or.imp_right ?_))
    exact fun ⟨stage', hmem⟩ => ⟨stage', List.mem_of_mem_eraseIdx hmem⟩
  · rw [mem_remaining] at h ⊢
    refine h.imp_right (Or.imp_right (Or.imp_right ?_))
    rintro ⟨stage', hmem⟩
    obtain hmem | heq := List.mem_or_eq_of_mem_set hmem
    · exact ⟨stage', hmem⟩
    · rw [(Prod.mk.inj heq).1]
      exact ⟨stage, List.mem_of_getElem? hi⟩

/-- The chain arms the timer for other purposes than the head. -/
theorem remaining_proceed {sch : Scheduler} {s t : Session} {phase : Phase} {k : Nat}
    (h : proceed sch s phase = some t) (hphase : phase ≠ .opening)
    (hk : ⟨.head, k⟩ ∈ remaining t) : ⟨.head, k⟩ ∈ remaining s := by
  cases phase with
  | starting =>
    cases h
    exact remaining_cancelTimer hk
  | opening => exact absurd rfl hphase
  | accepted ec str buffer =>
    cases h
    exact remaining_parse hk
  | handing ec request =>
    cases h
    exact remaining_cancelTimer hk
  | sending request =>
    cases h
    exact @remaining_runTimeoutTimer s ⟨.response, s.round⟩ k (by simp) hk
  | responded request =>
    cases h
    exact hk
  | closing stage next =>
    cases h
    rwa [remaining_closeStep] at hk
  | reading => cases h
  | readingBody request buffer => cases h
  | queued request => cases h
  | dropped => cases h
  | finished => cases h
  | crashed => cases h

/-- A step that starts no read adds no wait for one. -/
theorem remaining_step {sch : Scheduler} {s t : Session} {a : Action} {k : Nat}
    (h : step sch s a = some t) (hphase : s.phase ≠ .opening)
    (hk : ⟨.head, k⟩ ∈ remaining t) : ⟨.head, k⟩ ∈ remaining s := by
  have hcases := step_cases h
  cases a with
  | proceed => exact remaining_proceed hcases hphase hk
  | headRead ec str buffer =>
    obtain ⟨-, rfl⟩ := hcases
    exact remaining_cancelTimer hk
  | bodyRead ec read =>
    obtain ⟨request, buffer, -, rfl⟩ := hcases
    exact remaining_cancelTimer hk
  | sendResponse now =>
    obtain ⟨request, -, rfl⟩ := hcases
    exact hk
  | arm i =>
    obtain ⟨round, hround, rfl⟩ := hcases
    rw [mem_remaining] at hk ⊢
    obtain hk | hk | hk := hk
    · exact Or.inl (List.mem_of_mem_eraseIdx hk)
    · cases hk
      exact Or.inl (List.mem_of_getElem? hround)
    · exact Or.inr (Or.inr hk)
  | expire =>
    obtain ⟨wait, hwait, rfl⟩ := hcases
    rw [mem_remaining] at hk ⊢
    obtain hk | hk | hk | hk := hk
    · exact Or.inl hk
    · cases hk
    · obtain hk | hk := List.mem_append.mp hk
      · exact Or.inr (Or.inr (Or.inl hk))
      · rw [List.mem_singleton.mp hk]
        exact Or.inr (Or.inl hwait)
    · exact Or.inr (Or.inr (Or.inr hk))
  | timeout i =>
    obtain ⟨wait, hwait, rfl⟩ := hcases
    rw [mem_remaining] at hk ⊢
    obtain hk | hk | hk | ⟨stage, hk⟩ := hk
    · exact Or.inl hk
    · exact Or.inr (Or.inl hk)
    · exact Or.inr (Or.inr (Or.inl (List.mem_of_mem_eraseIdx hk)))
    · obtain hk | hk := List.mem_append.mp hk
      · exact Or.inr (Or.inr (Or.inr ⟨stage, hk⟩))
      · rw [(Prod.mk.inj (List.mem_singleton.mp hk)).1]
        exact Or.inr (Or.inr (Or.inl (List.mem_of_getElem? hwait)))
  | closer i =>
    obtain ⟨wait, stage, hi, rfl⟩ := hcases
    exact remaining_closerStep hi hk

theorem inProgress_checkErrors {s : Session} {ec : ErrorCode} {failed fine : Phase}
    (h : (checkErrors s ec failed fine).phase.inProgress = true) :
    failed.inProgress = true ∨ (isErrors ec s.isOpen = false ∧ fine.inProgress = true) := by
  unfold checkErrors at h
  dsimp only at h
  split at h
  · exact Or.inl h
  · split at h
    · exact Or.inl h
    · next hfine => exact Or.inr ⟨Bool.eq_false_iff.mpr hfine, h⟩

theorem inProgress_closeStep {s : Session} {stage : CloseStage} {next : Phase}
    (h : (closeStep s stage next).phase.inProgress = true) :
    next.inProgress = true ∧ (closeStep s stage next).round = s.round := by
  unfold closeStep at h ⊢
  split at h
  · cases h
  · exact ⟨h, rfl⟩
  · exact ⟨h, rfl⟩

theorem startBody_round (sch : Scheduler) (s : Session) (request : Request) (buffer : Str) :
    (startBody sch s request buffer).round = s.round := by
  unfold startBody
  split
  · rfl
  · split <;> rfl

theorem parse_round (sch : Scheduler) (s : Session) (ec : ErrorCode) (str buffer : Str) :
    (parse sch s ec str buffer).round = s.round := by
  unfold parse
  split
  · rfl
  · split
    · rfl
    · split
      · rfl
      · split
        · exact startBody_round sch s _ buffer
        · rfl

theorem inProgress_parse {sch : Scheduler} {s : Session} {ec : ErrorCode} {str buffer : Str}
    (h : (parse sch s ec str buffer).phase.inProgress = true) : ec = 0 := by
  by_contra hec
  rw [parse, if_pos hec] at h
  cases h

theorem inProgress_closerStep {s : Session} {i : Nat} {wait : Wait} {stage : CloseStage}
    (h : (closerStep s i wait stage).phase.inProgress = true) :
    s.phase.inProgress = true ∧ (closerStep s i wait stage).round = s.round := by
  unfold closerStep at h ⊢
  split at h
  · cases h
  · exact ⟨h, rfl⟩
  · exact ⟨h, rfl⟩

theorem inProgress_proceed {sch : Scheduler} {s t : Session} {phase : Phase}
    (h : proceed sch s phase = some t) (ht : t.phase.inProgress = true) :
    phase.inProgress = true ∧ t.round = s.round := by
  cases phase with
  | starting =>
    cases h
    cases ht
  | opening =>
    cases h
    unfold startRead at ht
    split at ht <;> cases ht
  | accepted ec str buffer =>
    cases h
    obtain rfl := inProgress_parse ht
    exact ⟨rfl, parse_round sch s 0 str buffer⟩
  | handing ec request =>
    cases h
    refine ⟨?_, rfl⟩
    obtain hfailed | ⟨-, hfine⟩ := inProgress_checkErrors ht
    · cases request with
      | none => cases hfailed
      | some request => rfl
    · exact hfine
  | sending request =>
    cases h
    cases ht
  | responded request =>
    cases h
    dsimp only at ht
    split at ht <;> cases ht
  | closing stage next =>
    cases h
    exact inProgress_closeStep ht
  | reading => cases h
  | readingBody request buffer => cases h
  | queued request => cases h
  | dropped => cases h
  | finished => cases h
  | crashed => cases h

/-- A request gets into progress by being accepted. -/
theorem inProgress_step {sch : Scheduler} {s t : Session} {a : Action} (h : step sch s a = some t)
    (ht : t.phase.inProgress = true) :
    Accepts s a ∨ (s.phase.inProgress = true ∧ t.round = s.round) := by
  have hcases := step_cases h
  cases a with
  | proceed => exact Or.inr (inProgress_proceed hcases ht)
  | headRead ec str buffer =>
    obtain ⟨hp, rfl⟩ := hcases
    obtain hfailed | ⟨hfine, hec⟩ := inProgress_checkErrors ht
    · cases hfailed
    · have hec' : ec = 0 := beq_iff_eq.mp hec
      subst hec'
      exact Or.inl ⟨hp, by simpa [isErrors] using hfine, str, buffer, rfl⟩
  | bodyRead ec read =>
    obtain ⟨request, buffer, hp, rfl⟩ := hcases
    rw [hp]
    exact Or.inr ⟨rfl, rfl⟩
  | sendResponse now =>
    obtain ⟨request, hp, rfl⟩ := hcases
    unfold responsePhase at ht
    dsimp only at ht
    split at ht
    · cases ht
    · split at ht
      · split at ht <;> cases ht
      · cases ht
  | arm i =>
    obtain ⟨round, -, rfl⟩ := hcases
    exact Or.inr ⟨ht, rfl⟩
  | expire =>
    obtain ⟨wait, -, rfl⟩ := hcases
    exact Or.inr ⟨ht, rfl⟩
  | timeout i =>
    obtain ⟨wait, -, rfl⟩ := hcases
    exact Or.inr ⟨ht, rfl⟩
  | closer i =>
    obtain ⟨wait, stage, -, rfl⟩ := hcases
    exact Or.inr (inProgress_closerStep ht)

/-- No wait armed for the read of the request in progress is left. -/
def Settled (s : Session) : Prop := s.phase.inProgress = true → headWait s ∉ remaining s

/-- The timer has been armed for the present read, and its wait has not expired. -/
def InTime (s : Session) : Prop := headWait s ∉ remaining (cancelTimer s)

instance (s : Session) : Decidable (InTime s) :=
  inferInstanceAs (Decidable (headWait s ∉ remaining (cancelTimer s)))

theorem settled_step {sch : Scheduler} {s t : Session} {a : Action} (hs : Settled s)
    (hkept : Accepts s a → InTime s) (h : step sch s a = some t) : Settled t := by
  intro ht
  obtain hacc | ⟨hp, hround⟩ := inProgress_step h ht
  · obtain ⟨hp, hopen, str, buffer, rfl⟩ := hacc
    have hsettled := hkept ⟨hp, hopen, str, buffer, rfl⟩
    obtain ⟨-, rfl⟩ := step_cases h
    exact hsettled
  · intro hmem
    rw [headWait, hround] at hmem
    refine hs hp (remaining_step h (fun hopening => ?_) hmem)
    rw [hopening] at hp
    cases hp

theorem not_kills_of_settled {s : Session} (hs : Settled s) (a : Action) : ¬ Kills s a := by
  rintro ⟨i, -, hp, -, hi⟩
  exact hs hp (mem_remaining.mpr (Or.inr (Or.inr (Or.inr ⟨.close, List.mem_of_getElem? hi⟩))))

/-- A request in progress stays out of danger as long as it is in progress. -/
theorem not_endangered_of_settled {sch : Scheduler} {s : Session} (hs : Settled s) :
    ¬ Endangered sch s := by
  rintro ⟨actions, t, a, hrun, halong, hkills⟩
  induction actions generalizing s with
  | nil =>
    cases hrun
    exact not_kills_of_settled hs a hkills
  | cons b actions ih =>
    obtain ⟨s', hstep, hrest⟩ := run_cons.mp hrun
    refine ih (settled_step hs (fun hacc => ?_) hstep) hrest (halong.2 s' hstep)
    -- no head is accepted while a request is in progress
    have hp : s.phase.inProgress = true := halong.1
    rw [hacc.1] at hp
    cases hp

/-- One more step of a request in progress. -/
theorem endangered_of_step {sch : Scheduler} {s t : Session} {a : Action}
    (hs : s.phase.inProgress = true) (h : step sch s a = some t) (ht : Endangered sch t) :
    Endangered sch s := by
  obtain ⟨actions, u, b, hrun, halong, hkills⟩ := ht
  refine ⟨a :: actions, u, b, run_cons.mpr ⟨t, h, hrun⟩, ⟨hs, fun t' h' => ?_⟩, hkills⟩
  cases h.symm.trans h'
  exact halong

/-- On an open socket a call of `close` goes on to its next operation. -/
theorem endangered_of_next {sch : Scheduler} {i : Nat} {stage next : CloseStage}
    (hoperation : closeOperation true stage = some (true, some next))
    (hnext : ∀ s, Closing s i next → Endangered sch s) (s : Session) (hs : Closing s i stage) :
    Endangered sch s := by
  obtain ⟨hp, hopen, hi⟩ := hs
  have hstep : step sch s (.closer i) =
      some { s with closers := s.closers.set i (headWait s, next) } := by
    rw [step_of_inProgress hp, move, hi, Option.map_some, closerStep, hopen, hoperation]
  obtain ⟨hlt, -⟩ := List.getElem?_eq_some_iff.mp hi
  exact endangered_of_step hp hstep (hnext _ ⟨hp, hopen, List.getElem?_set_self hlt⟩)

theorem endangered_of_closing {sch : Scheduler} {s : Session} {i : Nat} {stage : CloseStage}
    (hs : Closing s i stage) : Endangered sch s := by
  have hclose : ∀ s, Closing s i .close → Endangered sch s := fun s h =>
    ⟨[], s, .closer i, rfl, trivial, i, rfl, h⟩
  have hshutdown : ∀ s, Closing s i .shutdown → Endangered sch s := endangered_of_next rfl hclose
  have hcancel : ∀ s, Closing s i .cancel → Endangered sch s := endangered_of_next rfl hshutdown
  cases stage with
  | check => exact endangered_of_next rfl hcancel s hs
  | cancel => exact hcancel s hs
  | shutdown => exact hshutdown s hs
  | close => exact hclose s hs

section
variable {sch : Scheduler} {s : Session}

theorem endangered_of_expired (hs : s.phase.inProgress = true) (hopen : s.isOpen = true)
    (h : headWait s ∈ s.expired) : Endangered sch s := by
  obtain ⟨i, hi⟩ := List.mem_iff_getElem?.mp h
  have hstep : step sch s (.timeout i) = some { s with
      expired := s.expired.eraseIdx i, closers := s.closers ++ [(headWait s, .check)] } := by
    rw [step_of_inProgress hs, move, hi, Option.map_some]
  have hclosing : Closing { s with
      expired := s.expired.eraseIdx i, closers := s.closers ++ [(headWait s, .check)] }
      s.closers.length .check := ⟨hs, hopen, List.getElem?_concat_length⟩
  exact endangered_of_step hs hstep (endangered_of_closing hclosing)

theorem endangered_of_pending (hs : s.phase.inProgress = true) (hopen : s.isOpen = true)
    (h : s.pending = some (headWait s)) : Endangered sch s := by
  have hstep : step sch s .expire =
      some { cancelTimer s with expired := s.expired ++ [headWait s] } := by
    rw [step_of_inProgress hs, move, h, Option.map_some]
  exact endangered_of_step hs hstep (endangered_of_expired hs hopen (by simp [headWait, cancelTimer]))

theorem endangered_of_arming (hs : s.phase.inProgress = true) (hopen : s.isOpen = true)
    (h : s.round ∈ s.arming) : Endangered sch s := by
  obtain ⟨i, hi⟩ := List.mem_iff_getElem?.mp h
  have hstep : step sch s (.arm i) =
      some { runTimeoutTimer s (headWait s) with arming := s.arming.eraseIdx i } := by
    rw [step_of_inProgress hs, move, hi, Option.map_some, headWait]
  exact endangered_of_step hs hstep (endangered_of_pending hs hopen rfl)

/-- Wherever the wait is, some order brings it to the close. -/
theorem endangered_of_remaining (hs : s.phase.inProgress = true) (hopen : s.isOpen = true)
    (h : headWait s ∈ remaining s) : Endangered sch s := by
  obtain h | h | h | ⟨stage, h⟩ := mem_remaining.mp h
  · exact endangered_of_arming hs hopen h
  · exact endangered_of_pending hs hopen h
  · exact endangered_of_expired hs hopen h
  · obtain ⟨i, hi⟩ := List.mem_iff_getElem?.mp h
    exact endangered_of_closing ⟨hs, hopen, hi⟩

end

/-- An acceptance out of time is one. -/
theorem endangered_of_accepts {sch : Scheduler} {s t : Session} {a : Action} (hacc : Accepts s a)
    (hlate : ¬ InTime s) (h : step sch s a = some t) : Endangered sch t := by
  obtain ⟨hp, hopen, str, buffer, rfl⟩ := hacc
  obtain ⟨-, rfl⟩ := step_cases h
  have hphase : checkErrors s 0 (.handing 0 none) (.accepted 0 str buffer) =
      { cancelTimer s with phase := .accepted 0 str buffer } := by
    simp [checkErrors, isErrors, hopen]
  rw [hphase]
  exact endangered_of_remaining rfl hopen (not_not.mp hlate)

/-- At no point of a run is the request in progress in danger of the timeout of its own read,
in whatever order the rest runs, exactly when every head has been accepted with the timer
armed for it and the wait not expired. -/
theorem spares_requests_iff {sch : Scheduler} {isOpen : Bool} {actions : List Action} {t : Session}
    (hrun : run (step sch) (initial isOpen) actions = some t) :
    Throughout (step sch) (fun s => ¬ Endangered sch s) (initial isOpen) actions ↔
      Along (step sch) (fun s a => Accepts s a → InTime s) (initial isOpen) actions := by
  have hinitial : Settled (initial isOpen) := fun hp => by cases hp
  refine throughout_iff_along (fun s hs => not_endangered_of_settled hs)
    (fun s a s' hs hkept h => settled_step hs hkept h) (fun s a s' hs hlate h => ?_) hinitial hrun
  obtain ⟨hacc, hlate⟩ := Classical.not_imp.mp hlate
  exact not_not.mpr (endangered_of_accepts hacc hlate h)

/-- The wait of a read expires, the head comes in and its handler runs first. -/
theorem timeout_after_acceptance : ∃ s t,
    run (step Segmentation.noRouter) (initial true) [.proceed, .proceed, .arm 0, .expire,
      .headRead 0 "GET /a HTTP/1.1\r\nHost: b\r\n".toList []] = some s ∧
    s.phase = .accepted 0 "GET /a HTTP/1.1\r\nHost: b\r\n".toList [] ∧
    run (step Segmentation.noRouter) s [.timeout 0, .closer 0, .closer 0, .closer 0] = some t ∧
    t.phase = s.phase ∧ Kills t (.closer 0) ∧
    ¬ Throughout (step Segmentation.noRouter) (fun s => ¬ Endangered Segmentation.noRouter s)
      (initial true) [.proceed, .proceed, .arm 0, .expire,
        .headRead 0 "GET /a HTTP/1.1\r\nHost: b\r\n".toList []] := by
  refine ⟨_, _, rfl, rfl, rfl, rfl, ⟨0, rfl, rfl, rfl, rfl⟩, fun h => ?_⟩
  exact h _ [] _ (List.append_nil _).symm rfl (endangered_of_expired rfl rfl List.mem_cons_self)

/-- The head is accepted with the timer armed, and the wait is taken off. -/
theorem spares_requests_iff_armed :
    Throughout (step Segmentation.noRouter) (fun s => ¬ Endangered Segmentation.noRouter s)
      (initial true) [.proceed, .proceed, .arm 0,
        .headRead 0 "GET /a HTTP/1.1\r\nHost: b\r\n".toList []] := by
  have hother : ∀ {s a}, (∀ ec str buffer, a ≠ .headRead ec str buffer) → Accepts s a → InTime s :=
    fun hne ⟨_, _, str, buffer, heq⟩ => absurd heq (hne 0 str buffer)
  refine (spares_requests_iff rfl).mpr ⟨hother (by simp), fun s hs => ?_⟩
  cases hs
  refine ⟨hother (by simp), fun s hs => ?_⟩
  cases hs
  refine ⟨hother (by simp), fun s hs => ?_⟩
  cases hs
  exact ⟨fun _ => by decide, fun _ _ => trivial⟩

end RoutineHttp.IdleTimeout
