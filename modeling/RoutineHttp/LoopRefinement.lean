import RoutineHttp.Conversation
import RoutineHttp.IdleTimeout
import RoutineHttp.ServerClose

/-! The step machine of a session on the bytes of its client. The machine of the timers takes
what the reads bring as given; here they bring the client's segments, and what the tasks send
is compared with what the request loop sends, in every order of the handlers. -/
namespace RoutineHttp.LoopRefinement
open Lib HttpSession BodyLength IdleTimeout Conversation
open Segmentation (ArrivesApart bytes)
open RequestService (Incomplete Ends)
open ResponseDecoding (WrittenResponse Carries readMessage)
open SessionSteps (CloseStage responseText)

/-- A session, the segments not read yet, and the responses sent. -/
structure Fed where
  session : Session
  unread : List Str
  sent : List Response := []

/-- The chain of calls goes on, a read finds its bytes or fails, the task responds, or a handler
of the timer moves. -/
inductive Input where
  | proceed
  | head
  | body
  | failed (ec : ErrorCode) (read : Str)
  | respond (now : Tm)
  | arm (i : Nat)
  | expire
  | timeout (i : Nat)
  | closer (i : Nat)

/-- The bytes the blocking read of a body brings, and what is left behind them. -/
def bodyRead (unread : List Str) : Phase → Option (Str × List Str)
  | .readingBody request buffer => match contentLength request.headers with
    | .ok length => collectExactly (sizeSub length buffer.length) unread
    | .error _ => none
  | _ => none

def failedRead (ec : ErrorCode) (read : Str) : Phase → Action
  | .readingBody _ _ => .bodyRead ec read
  | _ => .headRead ec read []

/-- The response a task sends: on a closed socket, or without a text for it, none. -/
def answers (sch : Scheduler) (s : Session) (now : Tm) : List Response :=
  match s.phase with
  | .queued (some request) => match s.isOpen, responseText sch request now with
    | true, some _ => [(respond sch request).2.2]
    | _, _ => []
  | _ => []

def act (sch : Scheduler) (s : Fed) (a : Action) : Option Fed :=
  (IdleTimeout.step sch s.session a).map fun session => { s with session }

def step (sch : Scheduler) (s : Fed) : Input → Option Fed
  | .proceed => act sch s .proceed
  | .head => (collectUntil headEnd [] s.unread).bind fun found =>
    act sch { s with unread := found.2.2 }
      (.headRead 0 (found.2.1.take (found.1 - 2)) (found.2.1.drop found.1))
  | .body => (bodyRead s.unread s.session.phase).bind fun got =>
    act sch { s with unread := got.2 } (.bodyRead 0 got.1)
  | .failed ec read => if ec = 0 then none else act sch s (failedRead ec read s.session.phase)
  | .respond now =>
    act sch { s with sent := s.sent ++ answers sch s.session now } (.sendResponse now)
  | .arm i => act sch s (.arm i)
  | .expire => act sch s .expire
  | .timeout i => act sch s (.timeout i)
  | .closer i => act sch s (.closer i)

def initial (segments : List Str) : Fed := { session := IdleTimeout.initial true, unread := segments }

/-- A body's read is cancelled, and its handler finds the socket still open: it goes on with
the bytes it has. -/
def Truncates (s : Fed) (input : Input) : Prop :=
  ∃ ec read request buffer, input = .failed ec read ∧
    s.session.phase = .readingBody request buffer ∧ isErrors ec s.session.isOpen = false

/-- Neither a read fails nor a timeout's handler comes to close. -/
def Calm : Input → Prop
  | .failed _ _ => False
  | .closer _ => False
  | _ => True

/-- The chain waits for bytes the client has not sent, or has come to its end. -/
def AtRest (sch : Scheduler) (s : Fed) : Prop :=
  step sch s .proceed = none ∧ step sch s .head = none ∧ step sch s .body = none ∧
    ∀ now, step sch s (.respond now) = none

/-- The rest of the body's read in the request loop. -/
def restOfBody (sch : Scheduler) (request : Request) (buffer : Str) (unread : List Str) :
    Except ReadEnd (Request × List Str) :=
  (HttpSession.doReadBody sch.fromString request.headers request.body buffer unread).map fun got =>
    ({ request with body := some got.2.1 }, got.2.2)

/-- The rest of the head's handler in the request loop. -/
def restOfHead (sch : Scheduler) (str buffer : Str) (unread : List Str) :
    Except ReadEnd (Request × List Str) :=
  match Request.ofRaw str with
  | .error fault => .error (.thrown fault)
  | .ok object =>
    if isChunked object.headers then .error .notSupported
    else if hasLength object.headers then
      restOfBody sch (doPrepareBody sch object).2 buffer unread
    else .ok (object, unread)

/-- What the loop sends behind a response. -/
def afterTask (sch : Scheduler) (request : Request) (unread : List Str) : List Response :=
  if asksClose request.headers then [] else sentResponses (runProcess sch unread).1

def ofTask (sch : Scheduler) (request : Request) (unread : List Str) : List Response :=
  match (respond sch request).2.2.bodyText with
  | .error _ => []
  | .ok _ => (respond sch request).2.2 :: afterTask sch request unread

def ofRead (sch : Scheduler) : Except ReadEnd (Request × List Str) → List Response
  | .error _ => []
  | .ok read => ofTask sch read.1 read.2

/-- What the loop has still to send where the chain of calls is. -/
def toSend (sch : Scheduler) (unread : List Str) : Phase → List Response
  | .starting | .opening | .reading => sentResponses (runProcess sch unread).1
  | .accepted _ str buffer => ofRead sch (restOfHead sch str buffer unread)
  | .readingBody request buffer => ofRead sch (restOfBody sch request buffer unread)
  | .handing ec (some request) => if ec = 0 then ofTask sch request unread else []
  | .queued (some request) => ofTask sch request unread
  | .sending request | .responded request => afterTask sch request unread
  | _ => []

/-- Nothing else has closed the socket, and the chain is where successful reads lead. -/
def Steady (isOpen : Bool) : Phase → Prop
  | .finished | .dropped | .crashed => True
  | .closing _ next => next = .finished ∨ next = .dropped
  | .accepted ec _ _ => isOpen = true ∧ ec = 0
  | .handing ec request => isOpen = true ∧ request.isSome = true ∧ (ec = 0 ∨ ec = notSupported)
  | .queued request => isOpen = true ∧ request.isSome = true
  | _ => isOpen = true

/-- The chain can not come to send anything. -/
def Quiet (isOpen : Bool) : Phase → Prop
  | .finished | .dropped | .crashed | .closing _ _ => True
  | .accepted ec _ _ => isOpen = false ∨ ec ≠ 0
  | _ => isOpen = false

/-- The reads of the request loop find what is left of them. -/
theorem doReadHeaders_eq (sch : Scheduler) (segments : List Str) :
    ((doReadHeaders sch segments).2.map fun read => (read.request, read.rest)) =
      match collectUntil headEnd [] segments with
      | none => .error .waiting
      | some found => restOfHead sch (found.2.1.take (found.1 - 2)) (found.2.1.drop found.1)
          found.2.2 := by
  unfold doReadHeaders restOfHead
  cases collectUntil headEnd [] segments with
  | none => rfl
  | some found =>
    dsimp only
    cases Request.ofRaw (found.2.1.take (found.1 - 2)) with
    | error fault => rfl
    | ok object =>
      dsimp only
      cases isChunked object.headers with
      | true => rfl
      | false =>
        cases hasLength object.headers with
        | false => rfl
        | true =>
          simp only [restOfBody, Bool.false_eq_true, if_false, if_true]
          cases HttpSession.doReadBody sch.fromString (doPrepareBody sch object).2.headers
            (doPrepareBody sch object).2.body (found.2.1.drop found.1) found.2.2 <;> rfl

/-- A read sends nothing. -/
theorem sentResponses_doReadHeaders (sch : Scheduler) (segments : List Str) :
    sentResponses (doReadHeaders sch segments).1 = [] := by
  unfold doReadHeaders
  cases collectUntil headEnd [] segments with
  | none => rfl
  | some found =>
    dsimp only
    cases Request.ofRaw (found.2.1.take (found.1 - 2)) with
    | error fault => rfl
    | ok object =>
      dsimp only
      cases isChunked object.headers with
      | true => rfl
      | false =>
        cases hasLength object.headers with
        | false => rfl
        | true =>
          simp only [Bool.false_eq_true, if_false, if_true]
          unfold doPrepareBody
          split <;> rfl

theorem sentResponses_runProcess_ok {sch : Scheduler} {segments : List Str} {read : ReadRequest}
    (h : (doReadHeaders sch segments).2 = .ok read) :
    sentResponses (runProcess sch segments).1 = ofTask sch read.request read.rest := by
  have hround := processOnce_of_ok h
  have htask := sentResponses_task sch read.request read.rest
  have honce : sentResponses (processOnce sch segments).1 =
      sentResponses (task sch read.request read.rest).1 := by
    rw [hround, sentResponses_append, sentResponses_doReadHeaders]
    rfl
  have hnext : (processOnce sch segments).2 = (task sch read.request read.rest).2 := by rw [hround]
  unfold ofTask afterTask
  cases htext : (respond sch read.request).2.2.bodyText with
  | error fault =>
    have hended : ∀ rest, (processOnce sch segments).2 ≠ .again rest := fun rest hagain => by
      rw [hnext] at hagain
      have hrest := task_again hagain
      rw [hrest, task_again_iff, htext] at hagain
      simp at hagain
    rw [runProcess_ended hended, honce, htask, htext]
  | ok text =>
    rw [htext] at htask
    cases hclose : asksClose read.request.headers with
    | true =>
      have hended : ∀ rest, (processOnce sch segments).2 ≠ .again rest := fun rest hagain => by
        rw [hnext] at hagain
        have hrest := task_again hagain
        rw [hrest, task_again_iff, hclose] at hagain
        simp at hagain
      rw [runProcess_ended hended, honce, htask]
      rfl
    | false =>
      have hagain : (processOnce sch segments).2 = .again read.rest := by
        rw [hnext]
        exact task_again_iff.mpr ⟨⟨text, htext⟩, hclose⟩
      rw [runProcess_again hagain, sentResponses_append, honce, htask]
      rfl

theorem sentResponses_runProcess_error {sch : Scheduler} {segments : List Str} {ended : ReadEnd}
    (h : (doReadHeaders sch segments).2 = .error ended) :
    sentResponses (runProcess sch segments).1 = [] := by
  have hsent := sentResponses_doReadHeaders sch segments
  rw [runProcess_ended (processOnce_of_error h)]
  cases hd : doReadHeaders sch segments with
  | mk events result =>
    rw [hd] at h hsent
    cases h
    rw [processOnce, hd]
    cases ended with
    | notSupported =>
      rw [sentResponses_append, hsent]
      rfl
    | _ => exact hsent

/-- The loop sends what is left of it behind the read of the head. -/
theorem sentResponses_runProcess (sch : Scheduler) (segments : List Str) :
    sentResponses (runProcess sch segments).1 =
      match collectUntil headEnd [] segments with
      | none => []
      | some found => ofRead sch (restOfHead sch (found.2.1.take (found.1 - 2))
          (found.2.1.drop found.1) found.2.2) := by
  have hread := doReadHeaders_eq sch segments
  cases hd : (doReadHeaders sch segments).2 with
  | error ended =>
    rw [sentResponses_runProcess_error hd]
    rw [hd] at hread
    cases hc : collectUntil headEnd [] segments with
    | none => rfl
    | some found =>
      rw [hc] at hread
      exact (congrArg (ofRead sch) hread)
  | ok read =>
    rw [sentResponses_runProcess_ok hd]
    rw [hd] at hread
    cases hc : collectUntil headEnd [] segments with
    | none =>
      rw [hc] at hread
      cases hread
    | some found =>
      rw [hc] at hread
      exact (congrArg (ofRead sch) hread)

/-- The read of a body, from the length and the bytes. -/
theorem restOfBody_eq {sch : Scheduler} {request : Request} {buffer : Str} {unread : List Str}
    {length : Nat} (hlength : contentLength request.headers = .ok length) :
    ofRead sch (restOfBody sch request buffer unread) =
      match collectExactly (sizeSub length buffer.length) unread with
      | none => []
      | some got => toSend sch got.2 (bodyWritten sch request (buffer ++ got.1)) := by
  unfold restOfBody HttpSession.doReadBody
  rw [hlength]
  simp only [bind, Except.bind, readMissing_eq, readExactly]
  cases collectExactly (sizeSub length buffer.length) unread with
  | none => rfl
  | some got =>
    dsimp only
    unfold bodyWritten
    cases request.body <;> rfl

theorem ofRead_restOfBody_error {sch : Scheduler} {request : Request} {buffer : Str}
    {unread : List Str} {ended : ReadEnd} (hlength : contentLength request.headers = .error ended) :
    ofRead sch (restOfBody sch request buffer unread) = [] := by
  unfold restOfBody HttpSession.doReadBody
  rw [hlength]
  rfl

theorem steady_bodyWritten (sch : Scheduler) (request : Request) (body : Str) :
    Steady true (bodyWritten sch request body) := by
  unfold bodyWritten
  cases request.body with
  | none => trivial
  | some storage => exact ⟨rfl, rfl, Or.inl rfl⟩

theorem steady_startBody {sch : Scheduler} {s : Session} (hopen : s.isOpen = true)
    (request : Request) (buffer : Str) (unread : List Str) :
    Steady (startBody sch s request buffer).isOpen (startBody sch s request buffer).phase ∧
      toSend sch unread (startBody sch s request buffer).phase =
        ofRead sch (restOfBody sch request buffer unread) := by
  unfold startBody
  cases hlength : contentLength request.headers with
  | error ended =>
    rw [ofRead_restOfBody_error hlength]
    exact ⟨trivial, rfl⟩
  | ok length =>
    dsimp only
    by_cases hmissing : sizeSub length buffer.length > 0
    · rw [if_pos hmissing]
      exact ⟨hopen, rfl⟩
    · rw [if_neg hmissing, restOfBody_eq hlength, Nat.eq_zero_of_not_pos hmissing,
        collectExactly_zero]
      dsimp only
      rw [List.append_nil, hopen]
      exact ⟨steady_bodyWritten sch request buffer, rfl⟩

/-- Parsing the head leaves to be sent what the loop sends behind it. -/
theorem steady_parse {sch : Scheduler} {s : Session} (hopen : s.isOpen = true)
    (str buffer : Str) (unread : List Str) :
    Steady (parse sch s 0 str buffer).isOpen (parse sch s 0 str buffer).phase ∧
      toSend sch unread (parse sch s 0 str buffer).phase =
        ofRead sch (restOfHead sch str buffer unread) := by
  unfold parse restOfHead
  rw [if_neg (not_not_intro rfl)]
  cases Request.ofRaw str with
  | error fault => exact ⟨trivial, rfl⟩
  | ok object =>
    dsimp only
    cases isChunked object.headers with
    | true => exact ⟨⟨hopen, rfl, Or.inr rfl⟩, rfl⟩
    | false =>
      cases hasLength object.headers with
      | true => exact steady_startBody hopen (doPrepareBody sch object).2 buffer unread
      | false => exact ⟨⟨hopen, rfl, Or.inl rfl⟩, rfl⟩

/-- The check behind a success on an open socket passes. -/
theorem checkErrors_fine {s : Session} (hopen : s.isOpen = true) (failed fine : Phase) :
    checkErrors s 0 failed fine = { cancelTimer s with phase := fine } := by
  have htrue : isErrors 0 true = false := rfl
  rw [checkErrors, hopen, htrue]
  rfl

/-- What the chain does on its own sends nothing and leaves the same to be sent. -/
theorem steady_proceed {sch : Scheduler} {s t : Session} (hs : Steady s.isOpen s.phase)
    (h : proceed sch s s.phase = some t) (unread : List Str) :
    Steady t.isOpen t.phase ∧ toSend sch unread t.phase = toSend sch unread s.phase := by
  cases hp : s.phase with
  | starting =>
    rw [hp] at h hs
    cases h
    exact ⟨hs, rfl⟩
  | opening =>
    rw [hp] at h hs
    have hopen : s.isOpen = true := hs
    cases h
    rw [startRead, if_pos hopen]
    exact ⟨hopen, rfl⟩
  | accepted ec str buffer =>
    rw [hp] at h hs
    obtain ⟨hopen, rfl⟩ : s.isOpen = true ∧ ec = 0 := hs
    cases h
    exact steady_parse hopen str buffer unread
  | handing ec request =>
    rw [hp] at h hs
    obtain ⟨hopen, hrequest, hec⟩ : s.isOpen = true ∧ request.isSome = true ∧
      (ec = 0 ∨ ec = notSupported) := hs
    obtain ⟨request', rfl⟩ := Option.isSome_iff_exists.mp hrequest
    cases h
    obtain rfl | rfl := hec
    · rw [checkErrors_fine hopen]
      exact ⟨⟨hopen, rfl⟩, rfl⟩
    · exact ⟨Or.inr rfl, rfl⟩
  | sending request =>
    rw [hp] at h hs
    cases h
    exact ⟨hs, rfl⟩
  | responded request =>
    rw [hp] at h hs
    cases h
    dsimp only [toSend]
    unfold afterTask
    cases asksClose request.headers with
    | true => exact ⟨Or.inl rfl, rfl⟩
    | false => exact ⟨hs, rfl⟩
  | closing stage next =>
    rw [hp] at h hs
    have hnext : next = .finished ∨ next = .dropped := hs
    cases h
    unfold closeStep
    cases closeOperation s.isOpen stage with
    | none => exact ⟨trivial, rfl⟩
    | some result =>
      obtain ⟨isOpen, _ | stage'⟩ := result
      · obtain rfl | rfl := hnext <;> exact ⟨trivial, rfl⟩
      · exact ⟨hnext, rfl⟩
  | reading => rw [hp] at h; cases h
  | readingBody request buffer => rw [hp] at h; cases h
  | queued request => rw [hp] at h; cases h
  | dropped => rw [hp] at h; cases h
  | finished => rw [hp] at h; cases h
  | crashed => rw [hp] at h; cases h

/-- A task on an open socket sends its response where it has a text. -/
theorem steady_respond (sch : Scheduler) {s : Session} {request : Option Request}
    (hs : Steady s.isOpen s.phase) (hp : s.phase = .queued request) (now : Tm)
    (unread : List Str) :
    Steady s.isOpen (responsePhase sch s.isOpen now request) ∧
      answers sch s now ++ toSend sch unread (responsePhase sch s.isOpen now request) =
        toSend sch unread s.phase := by
  rw [hp] at hs
  obtain ⟨hopen, hrequest⟩ : s.isOpen = true ∧ request.isSome = true := hs
  obtain ⟨request', rfl⟩ := Option.isSome_iff_exists.mp hrequest
  unfold answers responsePhase
  rw [hp, hopen]
  simp only [if_true, toSend, ofTask]
  have hnone : responseText sch request' now = none ↔
      ∀ text, (respond sch request').2.2.bodyText ≠ .ok text :=
    ServerClose.responseText_eq_none_iff now
  cases htext : responseText sch request' now with
  | none =>
    rw [htext] at hnone
    cases hbody : (respond sch request').2.2.bodyText with
    | error fault => exact ⟨trivial, rfl⟩
    | ok text => exact absurd hbody (hnone.mp rfl text)
  | some written =>
    cases hbody : (respond sch request').2.2.bodyText with
    | error fault =>
      rw [htext, hbody] at hnone
      simp at hnone
    | ok text => exact ⟨rfl, rfl⟩

variable {sch : Scheduler} {s t : Fed} {input : Input}

theorem act_eq_some {a : Action} :
    act sch s a = some t ↔ ∃ session, IdleTimeout.step sch s.session a = some session ∧
      { s with session } = t :=
  Option.map_eq_some_iff

/-- A step of a steady session that nothing disturbs sends what it takes from the rest. -/
theorem steady_step (hs : Steady s.session.isOpen s.session.phase) (hcalm : Calm input)
    (h : step sch s input = some t) : Steady t.session.isOpen t.session.phase ∧
      t.sent ++ toSend sch t.unread t.session.phase =
        s.sent ++ toSend sch s.unread s.session.phase := by
  cases input with
  | proceed =>
    obtain ⟨session, hsession, rfl⟩ := act_eq_some.mp h
    obtain ⟨hsteady, hsame⟩ := steady_proceed hs (step_cases hsession) s.unread
    exact ⟨hsteady, congrArg (s.sent ++ ·) hsame⟩
  | head =>
    obtain ⟨found, hfound, h⟩ := Option.bind_eq_some_iff.mp h
    obtain ⟨session, hsession, rfl⟩ := act_eq_some.mp h
    obtain ⟨hp, rfl⟩ := step_cases hsession
    have hp : s.session.phase = .reading := hp
    rw [hp] at hs
    have hopen : s.session.isOpen = true := hs
    rw [checkErrors_fine hopen, hp, toSend, sentResponses_runProcess, hfound]
    exact ⟨⟨hopen, rfl⟩, rfl⟩
  | body =>
    obtain ⟨got, hgot, h⟩ := Option.bind_eq_some_iff.mp h
    obtain ⟨session, hsession, rfl⟩ := act_eq_some.mp h
    obtain ⟨request, buffer, hp, rfl⟩ := step_cases hsession
    have hp : s.session.phase = .readingBody request buffer := hp
    rw [hp] at hs hgot
    have hopen : s.session.isOpen = true := hs
    rw [checkErrors_fine hopen, hp, toSend]
    dsimp only [bodyRead] at hgot
    cases hlength : contentLength request.headers with
    | error ended =>
      rw [hlength] at hgot
      cases hgot
    | ok length =>
      rw [hlength] at hgot
      rw [restOfBody_eq hlength]
      dsimp only at hgot ⊢
      rw [hgot]
      dsimp only [cancelTimer]
      rw [hopen]
      exact ⟨steady_bodyWritten sch request (buffer ++ got.1), rfl⟩
  | failed ec read => exact hcalm.elim
  | respond now =>
    obtain ⟨session, hsession, rfl⟩ := act_eq_some.mp h
    obtain ⟨request, hp, rfl⟩ := step_cases hsession
    obtain ⟨hsteady, hsame⟩ := steady_respond sch hs hp now s.unread
    dsimp only
    rw [List.append_assoc, hsame]
    exact ⟨hsteady, rfl⟩
  | arm i =>
    obtain ⟨session, hsession, rfl⟩ := act_eq_some.mp h
    obtain ⟨round, -, rfl⟩ := step_cases hsession
    exact ⟨hs, rfl⟩
  | expire =>
    obtain ⟨session, hsession, rfl⟩ := act_eq_some.mp h
    obtain ⟨wait, -, rfl⟩ := step_cases hsession
    exact ⟨hs, rfl⟩
  | timeout i =>
    obtain ⟨session, hsession, rfl⟩ := act_eq_some.mp h
    obtain ⟨wait, -, rfl⟩ := step_cases hsession
    exact ⟨hs, rfl⟩
  | closer i => exact hcalm.elim

theorem quiet_of_closed {isOpen : Bool} (hclosed : isOpen = false) (phase : Phase) :
    Quiet isOpen phase := by
  cases phase with
  | accepted ec str buffer => exact Or.inl hclosed
  | finished => trivial
  | dropped => trivial
  | crashed => trivial
  | closing stage next => trivial
  | _ => exact hclosed

theorem closeOperation_isOpen {isOpen isOpen' : Bool} {stage : CloseStage}
    {after : Option CloseStage} (h : closeOperation isOpen stage = some (isOpen', after)) :
    isOpen' = isOpen ∨ isOpen' = false := by
  cases stage with
  | cancel =>
    cases isOpen with
    | true =>
      cases h
      exact Or.inl rfl
    | false => cases h
  | close =>
    cases h
    exact Or.inr rfl
  | check =>
    cases h
    exact Or.inl rfl
  | shutdown =>
    cases h
    exact Or.inl rfl

/-- The close of a timeout ends the process, closes the socket, or is not done yet. -/
theorem closerStep_cases (s : Session) (i : Nat) (wait : Wait) (stage : CloseStage) :
    (closerStep s i wait stage).phase = .crashed ∨
      (closerStep s i wait stage).phase = s.phase ∧
        ((closerStep s i wait stage).isOpen = s.isOpen ∨
          (closerStep s i wait stage).isOpen = false) := by
  unfold closerStep
  cases hclose : closeOperation s.isOpen stage with
  | none => exact Or.inl rfl
  | some result =>
    obtain ⟨isOpen, _ | stage'⟩ := result <;>
      exact Or.inr ⟨rfl, closeOperation_isOpen hclose⟩

/-- A failed read or a close leaves a steady session as it is, or quiet. -/
theorem disturbed_step (hs : Steady s.session.isOpen s.session.phase) (hwild : ¬ Calm input)
    (hwhole : ¬ Truncates s input) (h : step sch s input = some t) :
    t.sent = s.sent ∧ (Quiet t.session.isOpen t.session.phase ∨
      (Steady t.session.isOpen t.session.phase ∧
        toSend sch t.unread t.session.phase = toSend sch s.unread s.session.phase)) := by
  cases input with
  | failed ec read =>
    simp only [step] at h
    split at h
    · cases h
    · next hec =>
      obtain ⟨session, hsession, rfl⟩ := act_eq_some.mp h
      refine ⟨rfl, Or.inl ?_⟩
      cases hp : s.session.phase with
      | readingBody request buffer =>
        rw [hp] at hsession hs
        have hopen : s.session.isOpen = true := hs
        obtain ⟨-, -, -, rfl⟩ := step_cases hsession
        have herror : isErrors ec true = true := by
          rw [← Bool.not_eq_false, ← hopen]
          exact fun hfine => hwhole ⟨ec, read, request, buffer, rfl, hp, hfine⟩
        simp [checkErrors, herror, Quiet]
      | reading =>
        rw [hp] at hsession hs
        have hopen : s.session.isOpen = true := hs
        obtain ⟨-, rfl⟩ := step_cases hsession
        cases herror : isErrors ec true with
        | true => simp [checkErrors, herror, Quiet]
        | false => simp [checkErrors, herror, hopen, Quiet, hec]
      | _ =>
        rw [hp] at hsession
        have hreading := (step_cases hsession).1
        rw [hp] at hreading
        cases hreading
  | closer i =>
    obtain ⟨session, hsession, rfl⟩ := act_eq_some.mp h
    obtain ⟨wait, stage, -, rfl⟩ := step_cases hsession
    refine ⟨rfl, ?_⟩
    obtain hcrashed | ⟨hphase, hopen | hclosed⟩ := closerStep_cases s.session i wait stage
    · dsimp only
      rw [hcrashed]
      exact Or.inl trivial
    · dsimp only
      rw [hphase, hopen]
      exact Or.inr ⟨hs, rfl⟩
    · exact Or.inl (quiet_of_closed hclosed _)
  | _ => exact absurd trivial hwild

theorem startBody_isOpen (sch : Scheduler) (s : Session) (request : Request) (buffer : Str) :
    (startBody sch s request buffer).isOpen = s.isOpen := by
  unfold startBody
  cases contentLength request.headers with
  | error ended => rfl
  | ok length =>
    dsimp only
    split <;> rfl

theorem parse_isOpen (sch : Scheduler) (s : Session) (ec : ErrorCode) (str buffer : Str) :
    (parse sch s ec str buffer).isOpen = s.isOpen := by
  unfold parse
  split
  · rfl
  · cases Request.ofRaw str with
    | error fault => rfl
    | ok object =>
      dsimp only
      split
      · rfl
      · split
        · exact startBody_isOpen sch s _ buffer
        · rfl

theorem quiet_proceed {sch : Scheduler} {s t : Session} (hs : Quiet s.isOpen s.phase)
    (h : proceed sch s s.phase = some t) : Quiet t.isOpen t.phase := by
  cases hp : s.phase with
  | starting =>
    rw [hp] at h hs
    cases h
    exact hs
  | opening =>
    rw [hp] at h hs
    have hclosed : s.isOpen = false := hs
    cases h
    rw [startRead, if_neg (by rw [hclosed]; exact Bool.false_ne_true)]
    exact hclosed
  | accepted ec str buffer =>
    rw [hp] at h hs
    cases h
    obtain hclosed | hec := hs
    · exact quiet_of_closed ((parse_isOpen sch s ec str buffer).trans hclosed) _
    · rw [parse, if_pos hec]
      trivial
  | handing ec request =>
    rw [hp] at h hs
    cases h
    exact quiet_of_closed (show s.isOpen = false from hs) _
  | sending request =>
    rw [hp] at h hs
    cases h
    exact hs
  | responded request =>
    rw [hp] at h hs
    cases h
    exact quiet_of_closed (show s.isOpen = false from hs) _
  | closing stage next =>
    rw [hp] at h
    cases h
    unfold closeStep
    cases hopen : s.isOpen with
    | true => cases stage <;> first | trivial | exact quiet_of_closed rfl next
    | false => cases stage <;> first | trivial | exact quiet_of_closed rfl next
  | reading => rw [hp] at h; cases h
  | readingBody request buffer => rw [hp] at h; cases h
  | queued request => rw [hp] at h; cases h
  | dropped => rw [hp] at h; cases h
  | finished => rw [hp] at h; cases h
  | crashed => rw [hp] at h; cases h

theorem quiet_checkErrors {s : Session} (hclosed : s.isOpen = false) (ec : ErrorCode)
    (failed fine : Phase) :
    Quiet (checkErrors s ec failed fine).isOpen (checkErrors s ec failed fine).phase :=
  quiet_of_closed hclosed _

/-- A quiet session stays quiet and sends nothing. -/
theorem quiet_step (hs : Quiet s.session.isOpen s.session.phase) (h : step sch s input = some t) :
    Quiet t.session.isOpen t.session.phase ∧ t.sent = s.sent := by
  cases input with
  | proceed =>
    obtain ⟨session, hsession, rfl⟩ := act_eq_some.mp h
    exact ⟨quiet_proceed hs (step_cases hsession), rfl⟩
  | head =>
    obtain ⟨found, -, h⟩ := Option.bind_eq_some_iff.mp h
    obtain ⟨session, hsession, rfl⟩ := act_eq_some.mp h
    obtain ⟨hp, rfl⟩ := step_cases hsession
    have hp : s.session.phase = .reading := hp
    rw [hp] at hs
    exact ⟨quiet_checkErrors hs 0 _ _, rfl⟩
  | body =>
    obtain ⟨got, -, h⟩ := Option.bind_eq_some_iff.mp h
    obtain ⟨session, hsession, rfl⟩ := act_eq_some.mp h
    obtain ⟨request, buffer, hp, rfl⟩ := step_cases hsession
    have hp : s.session.phase = .readingBody request buffer := hp
    rw [hp] at hs
    exact ⟨quiet_checkErrors hs 0 _ _, rfl⟩
  | failed ec read =>
    simp only [step] at h
    split at h
    · cases h
    · obtain ⟨session, hsession, rfl⟩ := act_eq_some.mp h
      refine ⟨?_, rfl⟩
      cases hp : s.session.phase with
      | readingBody request buffer =>
        rw [hp] at hsession hs
        obtain ⟨-, -, -, rfl⟩ := step_cases hsession
        exact quiet_checkErrors hs ec _ _
      | reading =>
        rw [hp] at hsession hs
        obtain ⟨-, rfl⟩ := step_cases hsession
        exact quiet_checkErrors hs ec _ _
      | _ =>
        rw [hp] at hsession
        have hreading := (step_cases hsession).1
        rw [hp] at hreading
        cases hreading
  | respond now =>
    obtain ⟨session, hsession, rfl⟩ := act_eq_some.mp h
    obtain ⟨request, hp, rfl⟩ := step_cases hsession
    have hp : s.session.phase = .queued request := hp
    rw [hp] at hs
    have hclosed : s.session.isOpen = false := hs
    refine ⟨quiet_of_closed hclosed _, ?_⟩
    dsimp only [answers]
    rw [hp, hclosed]
    cases request <;> exact List.append_nil s.sent
  | arm i =>
    obtain ⟨session, hsession, rfl⟩ := act_eq_some.mp h
    obtain ⟨round, -, rfl⟩ := step_cases hsession
    exact ⟨hs, rfl⟩
  | expire =>
    obtain ⟨session, hsession, rfl⟩ := act_eq_some.mp h
    obtain ⟨wait, -, rfl⟩ := step_cases hsession
    exact ⟨hs, rfl⟩
  | timeout i =>
    obtain ⟨session, hsession, rfl⟩ := act_eq_some.mp h
    obtain ⟨wait, -, rfl⟩ := step_cases hsession
    exact ⟨hs, rfl⟩
  | closer i =>
    obtain ⟨session, hsession, rfl⟩ := act_eq_some.mp h
    obtain ⟨wait, stage, -, rfl⟩ := step_cases hsession
    refine ⟨?_, rfl⟩
    obtain hcrashed | ⟨hphase, hopen | hclosed⟩ := closerStep_cases s.session i wait stage
    · dsimp only
      rw [hcrashed]
      trivial
    · dsimp only
      rw [hphase, hopen]
      exact hs
    · exact quiet_of_closed hclosed _

/-- A steady session with what the loop sends in all sent or still to be sent. -/
def Keeps (sch : Scheduler) (total : List Response) (s : Fed) : Prop :=
  Steady s.session.isOpen s.session.phase ∧
    s.sent ++ toSend sch s.unread s.session.phase = total

/-- Such a session, or a quiet one that has sent the beginning. -/
def Follows (sch : Scheduler) (total : List Response) (s : Fed) : Prop :=
  Keeps sch total s ∨ (Quiet s.session.isOpen s.session.phase ∧ s.sent <+: total)

theorem keeps_step {total : List Response} (hs : Keeps sch total s) (hcalm : Calm input)
    (h : step sch s input = some t) : Keeps sch total t := by
  obtain ⟨hsteady, hsame⟩ := steady_step hs.1 hcalm h
  exact ⟨hsteady, hsame.trans hs.2⟩

theorem keeps_initial (sch : Scheduler) (segments : List Str) :
    Keeps sch (sentResponses (runProcess sch segments).1) (initial segments) := ⟨rfl, rfl⟩

theorem Follows.isPrefix {total : List Response} (h : Follows sch total s) : s.sent <+: total := by
  obtain ⟨-, hsent⟩ | ⟨-, hsent⟩ := h
  · exact ⟨_, hsent⟩
  · exact hsent

theorem follows_step {total : List Response} (hs : Follows sch total s)
    (hwhole : ¬ Truncates s input) (h : step sch s input = some t) : Follows sch total t := by
  obtain ⟨hsteady, hsent⟩ | ⟨hquiet, hsent⟩ := hs
  · by_cases hcalm : Calm input
    · exact Or.inl (keeps_step ⟨hsteady, hsent⟩ hcalm h)
    · obtain ⟨hsame, hquiet | ⟨hsteady', hrest⟩⟩ := disturbed_step hsteady hcalm hwhole h
      · exact Or.inr ⟨hquiet, hsame ▸ ⟨_, hsent⟩⟩
      · exact Or.inl ⟨hsteady', by rw [hsame, hrest, hsent]⟩
  · obtain ⟨hquiet', hsame⟩ := quiet_step hquiet h
    exact Or.inr ⟨hquiet', hsame ▸ hsent⟩

theorem proceed_of_step {s : Fed} (hnone : step sch s .proceed = none)
    (hlive : s.session.phase.isCrashed = false) :
    proceed sch s.session s.session.phase = none := by
  have hstep := Option.map_eq_none_iff.mp hnone
  rwa [IdleTimeout.step, if_neg (by rw [hlive]; exact Bool.false_ne_true)] at hstep

/-- At rest nothing is left to be sent. -/
theorem toSend_of_atRest (hrest : AtRest sch s) : toSend sch s.unread s.session.phase = [] := by
  obtain ⟨hproceed, hhead, hbody, hrespond⟩ := hrest
  cases hp : s.session.phase with
  | reading =>
    cases hfound : collectUntil headEnd [] s.unread with
    | none => rw [toSend, sentResponses_runProcess, hfound]
    | some found => simp [step, act, IdleTimeout.step, move, hp, hfound, Phase.isCrashed] at hhead
  | readingBody request buffer =>
    rw [toSend]
    cases hlength : contentLength request.headers with
    | error ended => exact ofRead_restOfBody_error hlength
    | ok length =>
      rw [restOfBody_eq hlength]
      cases hgot : collectExactly (sizeSub length buffer.length) s.unread with
      | none => rfl
      | some got =>
        simp [step, act, IdleTimeout.step, move, hp, bodyRead, hlength, hgot,
          Phase.isCrashed] at hbody
  | queued request =>
    have hnone := hrespond sch.now
    simp [step, act, IdleTimeout.step, move, hp, Phase.isCrashed] at hnone
  | dropped => rfl
  | finished => rfl
  | crashed => rfl
  | _ =>
    have hnone := proceed_of_step hproceed (by rw [hp]; rfl)
    rw [hp] at hnone
    cases hnone

theorem sent_isPrefix {segments : List Str} {inputs : List Input}
    (hrun : run (step sch) (initial segments) inputs = some t)
    (hwhole : Along (step sch) (fun s input => ¬ Truncates s input) (initial segments) inputs) :
    t.sent <+: sentResponses (runProcess sch segments).1 := by
  have hfollows := run_invariant_along (fun _ _ _ hs hkept h => follows_step hs hkept h)
    (Or.inl (keeps_initial sch segments)) hwhole hrun
  exact hfollows.isPrefix

theorem sent_of_atRest {segments : List Str} {inputs : List Input}
    (hrun : run (step sch) (initial segments) inputs = some t)
    (hcalm : ∀ input ∈ inputs, Calm input) (hrest : AtRest sch t) :
    t.sent = sentResponses (runProcess sch segments).1 := by
  have hkeeps := run_invariant_along (fun _ _ _ hs hcalm h => keeps_step hs hcalm h)
    (keeps_initial sch segments)
    (along_of_forall_mem (fun input hmem _ => hcalm input hmem) (initial segments)) hrun
  rw [← hkeeps.2, toSend_of_atRest hrest, List.append_nil]

theorem not_truncates_of_calm (hcalm : Calm input) (s : Fed) : ¬ Truncates s input := by
  rintro ⟨ec, read, request, buffer, rfl, -⟩
  exact hcalm

/-- One request read and answered, with the timer armed late, and the next read waiting. -/
def oneRound : List Input :=
  [.proceed, .proceed, .head, .arm 0, .proceed, .proceed, .respond ResponseStream.someDay,
    .proceed, .proceed, .proceed, .proceed]

end RoutineHttp.LoopRefinement
