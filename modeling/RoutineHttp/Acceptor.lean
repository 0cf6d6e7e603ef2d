import RoutineHttp.HeadCompletion
import RoutineHttp.Lib.Turns

/-! The acceptor and the sessions it starts, in one process. Handlers of completed accepts and
the sessions' own steps take turns in every order, and what one of them throws ends them all. -/
namespace RoutineHttp.Acceptor
open Lib BodyLength IdleTimeout HeadCompletion
open HttpSession (doPrepareBody hasLength isChunked contentLength)
open SessionSteps (CloseStage responseText)

/-- How often the peer's endpoint is asked for: twice for the trace, twice by the constructor
of the session. -/
def endpointCalls : Nat := 4

/-- Where a call of `on_accept` is: it starts the next accept, looks at the error, asks for the
peer's endpoint. -/
inductive Stage where
  | rearming
  | checking
  | asking (left : Nat)
  deriving DecidableEq, Repr

structure Handler where
  ec : ErrorCode
  stage : Stage := .rearming
  deriving DecidableEq, Repr

/-- The accepts started and not completed, the calls of `on_accept`, and the sessions. -/
structure Server where
  accepting : Nat
  handlers : List Handler := []
  sessions : List Session := []
  crashed : Bool := false

/-- An accept completes, a call of `on_accept` goes on, its peer being there or not, or a
session does. -/
inductive Action where
  | accepted (ec : ErrorCode)
  | handler (i : Nat) (connected : Bool)
  | session (i : Nat) (e : HeadCompletion.Event)

/-- `remote_endpoint` throws when the peer is gone. -/
def onAccept (s : Server) (i : Nat) (connected : Bool) (h : Handler) : Server :=
  match h.stage with
  | .rearming => { s with
      accepting := s.accepting + 1, handlers := s.handlers.set i { h with stage := .checking } }
  | .checking =>
    if h.ec ≠ 0 then { s with handlers := s.handlers.eraseIdx i }
    else { s with handlers := s.handlers.set i { h with stage := .asking endpointCalls } }
  | .asking 0 => { s with
      handlers := s.handlers.eraseIdx i, sessions := s.sessions ++ [IdleTimeout.initial true] }
  | .asking (left + 1) =>
    if connected then { s with handlers := s.handlers.set i { h with stage := .asking left } }
    else { s with crashed := true }

def setSession (s : Server) (i : Nat) (session : Session) : Server :=
  { s with sessions := s.sessions.set i session, crashed := session.phase.isCrashed }

def step (sch : Scheduler) (s : Server) (a : Action) : Option Server :=
  if s.crashed then none
  else match a with
    | .accepted ec => if s.accepting = 0 then none
      else some { s with accepting := s.accepting - 1, handlers := s.handlers ++ [{ ec }] }
    | .handler i connected => s.handlers[i]?.map (onAccept s i connected)
    | .session i e => s.sessions[i]?.bind fun session =>
      (HeadCompletion.step sch session e).map (setSession s i)

/-- `async_accept` has been called so many times. -/
def initial (n : Nat) : Server := { accepting := n }

/-- Everything a step can do. -/
theorem step_cases {sch : Scheduler} {s t : Server} {a : Action} (h : step sch s a = some t) :
    s.crashed = false ∧ match a with
    | .accepted ec => 0 < s.accepting ∧
        t = { s with accepting := s.accepting - 1, handlers := s.handlers ++ [{ ec }] }
    | .handler i connected => ∃ handler, s.handlers[i]? = some handler ∧
        t = onAccept s i connected handler
    | .session i e => ∃ session session', s.sessions[i]? = some session ∧
        HeadCompletion.step sch session e = some session' ∧ t = setSession s i session' := by
  unfold step at h
  split at h
  · cases h
  · next hlive =>
    refine ⟨Bool.eq_false_iff.mpr hlive, ?_⟩
    cases a with
    | accepted ec =>
      dsimp only at h
      split at h
      · cases h
      · next hzero => exact ⟨Nat.pos_of_ne_zero hzero, (Option.some.inj h).symm⟩
    | handler i connected =>
      obtain ⟨handler, hi, rfl⟩ := Option.map_eq_some_iff.mp h
      exact ⟨handler, hi, rfl⟩
    | session i e =>
      obtain ⟨session, hi, hmap⟩ := Option.bind_eq_some_iff.mp h
      obtain ⟨session', hs', rfl⟩ := Option.map_eq_some_iff.mp hmap
      exact ⟨session, session', hi, hs', rfl⟩

/-- The head or its length cannot be read, or there is nothing to write a complete body to. -/
def Unreadable (sch : Scheduler) (str buffer : Str) : Prop :=
  match Request.ofRaw str with
  | .error _ => True
  | .ok object => hasLength object.headers = true ∧
    match contentLength object.headers with
    | .error _ => True
    | .ok length => sizeSub length buffer.length = 0 ∧ (doPrepareBody sch object).2.body = none

/-- A step of a session that throws: a handler goes on behind a read that was cancelled, or with
what is not readable, a body has no storage, a response no text, and `cancel` a closed socket. -/
def Throws (sch : Scheduler) (s : Session) : HeadCompletion.Event → Prop
  | .completed _ => False
  | .other a => match a with
    | .proceed => match s.phase with
      | .accepted ec str buffer => ec ≠ 0 ∨ Unreadable sch str buffer
      | .closing stage _ => stage = .cancel ∧ s.isOpen = false
      | _ => False
    | .bodyRead ec _ => isErrors ec s.isOpen = false ∧
        ∃ request buffer, s.phase = .readingBody request buffer ∧ request.body = none
    | .sendResponse now => s.isOpen = true ∧
        ∃ request, s.phase = .queued (some request) ∧ responseText sch request now = none
    | .closer i => s.isOpen = false ∧ ∃ wait, s.closers[i]? = some (wait, .cancel)
    | _ => False

/-- Such a step of a session, or a peer that is gone when its endpoint is asked for. -/
def Fatal (sch : Scheduler) (s : Server) : Action → Prop
  | .accepted _ => False
  | .handler i connected => connected = false ∧
      ∃ ec left, s.handlers[i]? = some ⟨ec, .asking (left + 1)⟩
  | .session i e => ∃ session, s.sessions[i]? = some session ∧ Throws sch session e

/-- What a call of `close` returns to is not the end of the process. -/
def Resumes : Phase → Prop
  | .closing _ next => next.isCrashed = false ∧ Resumes next
  | _ => True

/-- The request of a task is there, and `close` returns. -/
def Sound (s : Session) : Prop := Refused s.isOpen s.phase ∧ Resumes s.phase

theorem isErrors_of_isErrors_open {ec : ErrorCode} {isOpen : Bool}
    (h : isErrors ec isOpen = false) : isErrors ec true = false :=
  isErrors_eq_false_iff.mpr ⟨(isErrors_eq_false_iff.mp h).1, rfl⟩

theorem isCrashed_checkErrors {s : Session} {ec : ErrorCode} {failed fine : Phase}
    (hfailed : failed.isCrashed = false) :
    (checkErrors s ec failed fine).phase.isCrashed = true ↔
      isErrors ec s.isOpen = false ∧ fine.isCrashed = true := by
  unfold checkErrors
  dsimp only
  cases hec : isErrors ec s.isOpen with
  | false =>
    rw [isErrors_of_isErrors_open hec]
    simp
  | true =>
    split
    · simp [Phase.isCrashed]
    · simp [hfailed]

theorem isCrashed_bodyWritten (sch : Scheduler) (request : Request) (body : Str) :
    (bodyWritten sch request body).isCrashed = true ↔ request.body = none := by
  unfold bodyWritten
  cases request.body <;> simp [Phase.isCrashed]

theorem isCrashed_parse (sch : Scheduler) (s : Session) (ec : ErrorCode) (str buffer : Str) :
    (parse sch s ec str buffer).phase.isCrashed = true ↔ ec ≠ 0 ∨ Unreadable sch str buffer := by
  unfold parse Unreadable
  by_cases hec : ec = 0
  · cases hparse : Request.ofRaw str with
    | error fault => simp [hec, Phase.isCrashed]
    | ok object =>
      have hheaders := (Segmentation.doPrepareBody_head sch object).2.2.2
      cases hlength : hasLength object.headers with
      | false =>
        cases hchunked : isChunked object.headers <;> simp [hec, hlength, hchunked, Phase.isCrashed]
      | true =>
        have hchunked : isChunked object.headers = false := by rw [isChunked, hlength]; rfl
        simp only [hec, hchunked, hlength, ne_eq, not_true_eq_false, if_false, if_true,
          Bool.false_eq_true, false_or, true_and, startBody, hheaders]
        cases hread : contentLength object.headers with
        | error fault => simp [Phase.isCrashed]
        | ok length =>
          by_cases hmissing : sizeSub length buffer.length > 0
          · simp [hmissing, Nat.ne_of_gt hmissing, Phase.isCrashed, runTimeoutTimer]
          · simp [Nat.eq_zero_of_not_pos hmissing, isCrashed_bodyWritten]
  · simp [hec, Phase.isCrashed]

theorem closeOperation_eq_none_iff {isOpen : Bool} {stage : CloseStage} :
    closeOperation isOpen stage = none ↔ stage = .cancel ∧ isOpen = false := by
  cases isOpen <;> cases stage <;> simp [closeOperation]

theorem isCrashed_closeStep {s : Session} {stage : CloseStage} {next : Phase}
    (hnext : next.isCrashed = false) :
    (closeStep s stage next).phase.isCrashed = true ↔ stage = .cancel ∧ s.isOpen = false := by
  rw [← closeOperation_eq_none_iff]
  unfold closeStep
  split
  · next hnone => simp [hnone, Phase.isCrashed]
  · next hsome => simp [hsome, hnext]
  · next hsome => simp [hsome, Phase.isCrashed]

theorem isCrashed_closerStep {s : Session} {i : Nat} {wait : Wait} {stage : CloseStage}
    (hs : s.phase.isCrashed = false) :
    (closerStep s i wait stage).phase.isCrashed = true ↔ stage = .cancel ∧ s.isOpen = false := by
  rw [← closeOperation_eq_none_iff]
  unfold closerStep
  split
  · next hnone => simp [hnone, Phase.isCrashed]
  · next hsome => simp [hsome, hs]
  · next hsome => simp [hsome, hs]

theorem isCrashed_proceed {sch : Scheduler} {s t : Session} (hs : Resumes s.phase)
    (h : proceed sch s s.phase = some t) :
    t.phase.isCrashed = true ↔ Throws sch s (.other .proceed) := by
  unfold Throws
  dsimp only
  cases hp : s.phase with
  | starting =>
    rw [hp] at h
    cases h
    simp [Phase.isCrashed]
  | opening =>
    rw [hp] at h
    cases h
    unfold startRead
    split <;> simp [Phase.isCrashed]
  | accepted ec str buffer =>
    rw [hp] at h
    cases h
    exact isCrashed_parse sch s ec str buffer
  | handing ec request =>
    rw [hp] at h
    cases h
    have hfailed : (if request.isSome then Phase.dropped else .finished).isCrashed = false := by
      cases request <;> rfl
    rw [isCrashed_checkErrors hfailed]
    simp [Phase.isCrashed]
  | sending request =>
    rw [hp] at h
    cases h
    simp [Phase.isCrashed]
  | responded request =>
    rw [hp] at h
    cases h
    dsimp only
    split <;> simp [Phase.isCrashed]
  | closing stage next =>
    rw [hp] at h hs
    cases h
    exact isCrashed_closeStep hs.1
  | reading => rw [hp] at h; cases h
  | readingBody request buffer => rw [hp] at h; cases h
  | queued request => rw [hp] at h; cases h
  | dropped => rw [hp] at h; cases h
  | finished => rw [hp] at h; cases h
  | crashed => rw [hp] at h; cases h

/-- A step of a session ends the process exactly when it throws. -/
theorem throws_iff {sch : Scheduler} {s t : Session} {e : HeadCompletion.Event} (hs : Sound s)
    (h : HeadCompletion.step sch s e = some t) :
    t.phase.isCrashed = true ↔ Throws sch s e := by
  obtain ⟨hrefused, hresumes⟩ := hs
  obtain ⟨a, ha⟩ := step_action h
  have hlive : s.phase.isCrashed = false := by
    by_contra hcrashed
    simp [IdleTimeout.step, hcrashed] at ha
  cases e with
  | completed c =>
    obtain ⟨-, rfl⟩ := IdleTimeout.step_cases h
    rw [isCrashed_checkErrors rfl]
    simp [Phase.isCrashed, Throws]
  | other a =>
    cases a with
    | proceed => exact isCrashed_proceed hresumes (IdleTimeout.step_cases h)
    | headRead ec str buffer => cases h
    | bodyRead ec read =>
      obtain ⟨request, buffer, hp, rfl⟩ := IdleTimeout.step_cases h
      rw [isCrashed_checkErrors rfl, isCrashed_bodyWritten]
      simp [Throws, hp]
    | sendResponse now =>
      obtain ⟨request, hp, rfl⟩ := IdleTimeout.step_cases h
      cases request with
      | none =>
        rw [hp] at hrefused
        exact hrefused.elim
      | some request =>
        cases hopen : s.isOpen <;> cases htext : responseText sch request now <;>
          simp [Throws, responsePhase, hp, hopen, htext, Phase.isCrashed]
    | arm i =>
      obtain ⟨round, -, rfl⟩ := IdleTimeout.step_cases h
      simp [Throws, runTimeoutTimer, hlive]
    | expire =>
      obtain ⟨wait, -, rfl⟩ := IdleTimeout.step_cases h
      simp [Throws, cancelTimer, hlive]
    | timeout i =>
      obtain ⟨wait, -, rfl⟩ := IdleTimeout.step_cases h
      simp [Throws, hlive]
    | closer i =>
      obtain ⟨wait, stage, hi, rfl⟩ := IdleTimeout.step_cases h
      rw [isCrashed_closerStep hlive]
      simp [Throws, hi, and_comm]

theorem resumes_checkErrors {s : Session} {ec : ErrorCode} {failed fine : Phase}
    (hcrashed : failed.isCrashed = false) (hfailed : Resumes failed) (hfine : Resumes fine) :
    Resumes (checkErrors s ec failed fine).phase := by
  unfold checkErrors
  dsimp only
  split
  · exact ⟨hcrashed, hfailed⟩
  · split
    · exact hfailed
    · exact hfine

theorem resumes_bodyWritten (sch : Scheduler) (request : Request) (body : Str) :
    Resumes (bodyWritten sch request body) := by
  unfold bodyWritten
  split <;> trivial

theorem resumes_parse (sch : Scheduler) (s : Session) (ec : ErrorCode) (str buffer : Str) :
    Resumes (parse sch s ec str buffer).phase := by
  unfold parse
  split
  · trivial
  · split
    · trivial
    · split
      · trivial
      · split
        · unfold startBody
          split
          · trivial
          · split
            · trivial
            · exact resumes_bodyWritten sch _ buffer
        · trivial

theorem resumes_proceed {sch : Scheduler} {s t : Session} {phase : Phase} (hs : Resumes phase)
    (h : proceed sch s phase = some t) : Resumes t.phase := by
  cases phase with
  | starting =>
    cases h
    trivial
  | opening =>
    cases h
    unfold startRead
    split <;> trivial
  | accepted ec str buffer =>
    cases h
    exact resumes_parse sch s ec str buffer
  | handing ec request =>
    cases h
    refine resumes_checkErrors ?_ ?_ trivial
    · cases request <;> rfl
    · cases request <;> trivial
  | sending request =>
    cases h
    trivial
  | responded request =>
    cases h
    dsimp only
    split
    · exact ⟨rfl, trivial⟩
    · trivial
  | closing stage next =>
    cases h
    unfold closeStep
    split
    · trivial
    · exact hs.2
    · exact hs
  | _ => cases h

theorem resumes_step {sch : Scheduler} {s t : Session} {a : IdleTimeout.Action}
    (hs : Resumes s.phase) (h : IdleTimeout.step sch s a = some t) : Resumes t.phase := by
  have hcases := IdleTimeout.step_cases h
  cases a with
  | proceed => exact resumes_proceed hs hcases
  | headRead ec str buffer =>
    obtain ⟨-, rfl⟩ := hcases
    exact resumes_checkErrors rfl trivial trivial
  | bodyRead ec read =>
    obtain ⟨request, buffer, -, rfl⟩ := hcases
    exact resumes_checkErrors rfl trivial (resumes_bodyWritten sch request _)
  | sendResponse now =>
    obtain ⟨request, -, rfl⟩ := hcases
    unfold responsePhase
    dsimp only
    split
    · trivial
    · split
      · split <;> trivial
      · trivial
  | arm i =>
    obtain ⟨round, -, rfl⟩ := hcases
    exact hs
  | expire =>
    obtain ⟨wait, -, rfl⟩ := hcases
    exact hs
  | timeout i =>
    obtain ⟨wait, -, rfl⟩ := hcases
    exact hs
  | closer i =>
    obtain ⟨wait, stage, -, rfl⟩ := hcases
    unfold closerStep
    split
    · trivial
    · exact hs
    · exact hs

theorem sound_step {sch : Scheduler} {s t : Session} {e : HeadCompletion.Event} (hs : Sound s)
    (h : HeadCompletion.step sch s e = some t) : Sound t := by
  obtain ⟨a, ha⟩ := step_action h
  exact ⟨refused_event s e t hs.1 h, resumes_step hs.2 ha⟩

theorem sound_initial : Sound (IdleTimeout.initial true) := ⟨trivial, trivial⟩

def SessionsSound (s : Server) : Prop := ∀ session ∈ s.sessions, Sound session

section
variable {sch : Scheduler} {s t : Server} {a : Action}

theorem sessions_onAccept (s : Server) (i : Nat) (connected : Bool) (h : Handler) :
    (onAccept s i connected h).sessions =
      if h.stage = .asking 0 then s.sessions ++ [IdleTimeout.initial true] else s.sessions := by
  unfold onAccept
  split
  · next hstage => simp [hstage]
  · next hstage => split <;> simp [hstage]
  · next hstage => simp [hstage]
  · next hstage => split <;> simp [hstage]

theorem sessionsSound_step (hs : SessionsSound s) (h : step sch s a = some t) :
    SessionsSound t := by
  obtain ⟨-, hcases⟩ := step_cases h
  cases a with
  | accepted ec =>
    obtain ⟨-, rfl⟩ := hcases
    exact hs
  | handler i connected =>
    obtain ⟨handler, -, rfl⟩ := hcases
    rw [SessionsSound, sessions_onAccept]
    split
    · exact List.forall_mem_append.mpr ⟨hs, List.forall_mem_singleton.mpr sound_initial⟩
    · exact hs
  | session i e =>
    obtain ⟨session, session', hi, hs', rfl⟩ := hcases
    intro other hmem
    obtain hmem | rfl := List.mem_or_eq_of_mem_set hmem
    · exact hs other hmem
    · exact sound_step (hs session (List.mem_of_getElem? hi)) hs'

theorem crashed_onAccept (s : Server) (i : Nat) (connected : Bool) (h : Handler)
    (hs : s.crashed = false) : (onAccept s i connected h).crashed = true ↔
      connected = false ∧ ∃ left, h.stage = .asking (left + 1) := by
  unfold onAccept
  split
  · next hstage => simp [hstage, hs]
  · next hstage => split <;> simp [hstage, hs]
  · next hstage => simp [hstage, hs]
  · next hstage => cases connected <;> simp [hstage, hs]

/-- The process ends with exactly the steps that throw. -/
theorem crashed_step (hs : SessionsSound s) (h : step sch s a = some t) :
    t.crashed = true ↔ Fatal sch s a := by
  obtain ⟨hlive, hcases⟩ := step_cases h
  cases a with
  | accepted ec =>
    obtain ⟨-, rfl⟩ := hcases
    simp [Fatal, hlive]
  | handler i connected =>
    obtain ⟨⟨ec, stage⟩, hi, rfl⟩ := hcases
    rw [crashed_onAccept s i connected _ hlive]
    simp [Fatal, hi]
  | session i e =>
    obtain ⟨session, session', hi, hs', rfl⟩ := hcases
    have hthrows := throws_iff (hs session (List.mem_of_getElem? hi)) hs'
    simp [Fatal, setSession, hi, hthrows]

end

/-- From any number of calls of `async_accept`, whatever the sessions and their peers do in
whatever order, the server goes on as long as no step is one of those that throw. -/
theorem server_lives_iff {sch : Scheduler} {n : Nat} {actions : List Action} {t : Server}
    (hrun : run (step sch) (initial n) actions = some t) :
    t.crashed = false ↔ Along (step sch) (fun s a => ¬ Fatal sch s a) (initial n) actions := by
  have hinitial : SessionsSound (initial n) := List.forall_mem_nil _
  have hsound := run_invariant (fun _ _ _ hs h => sessionsSound_step hs h) hinitial hrun
  have hkept : ∀ s a s', SessionsSound s ∧ s.crashed = false → ¬ Fatal sch s a →
      step sch s a = some s' → SessionsSound s' ∧ s'.crashed = false := fun s a s' hs hkept h =>
    ⟨sessionsSound_step hs.1 h, Bool.eq_false_iff.mpr fun hc => hkept ((crashed_step hs.1 h).mp hc)⟩
  have hspoil : ∀ s a s', SessionsSound s ∧ s.crashed = false → ¬ ¬ Fatal sch s a →
      step sch s a = some s' → s'.crashed = true := fun s a s' hs hfatal h =>
    (crashed_step hs.1 h).mpr (not_not.mp hfatal)
  have hstays : ∀ s a s', s.crashed = true → step sch s a = some s' → s'.crashed = true :=
    fun s a s' hs h => by rw [(step_cases h).1] at hs; cases hs
  have hnot : ∀ s : Server, s.crashed = true → ¬ (SessionsSound s ∧ s.crashed = false) :=
    fun s hs hp => by rw [hp.2] at hs; cases hs
  have hiff := run_iff_along hkept hspoil hstays hnot ⟨hinitial, rfl⟩ hrun
  rw [← hiff]
  exact ⟨fun hlive => ⟨hsound, hlive⟩, fun h => h.2⟩

/-- The peer of an accepted connection is gone when its endpoint is asked for. -/
theorem server_lives_iff_peerGone : ¬ Along (step Segmentation.noRouter)
    (fun s a => ¬ Fatal Segmentation.noRouter s a) (initial 1)
    [.accepted 0, .handler 0 true, .handler 0 true, .handler 0 false] := by
  obtain ⟨t, hrun, hcrashed⟩ : ∃ t, run (step Segmentation.noRouter) (initial 1)
      [.accepted 0, .handler 0 true, .handler 0 true, .handler 0 false] = some t ∧
        t.crashed = true := ⟨_, rfl, rfl⟩
  intro halong
  rw [(server_lives_iff hrun).mpr halong] at hcrashed
  cases hcrashed

/-- What a step of the server is for its sessions. -/
def turnOf (s : Server) : Action → Option (Turn HeadCompletion.Event)
  | .accepted _ => none
  | .handler i _ => if s.handlers[i]?.map Handler.stage = some (.asking 0) then some .start else none
  | .session i e => some (.step i e)

/-- What it is for one of them. -/
def eventOf (i : Nat) : Action → Option HeadCompletion.Event
  | .session j e => if j = i then some e else none
  | _ => none

/-- The sessions are machines that step in turn. -/
theorem sessions_step {sch : Scheduler} (s : Server) (a : Action) (t : Server)
    (h : step sch s a = some t) :
    run (Turn.run (HeadCompletion.step sch) (IdleTimeout.initial true)) s.sessions
      (turnOf s a).toList = some t.sessions := by
  obtain ⟨-, hcases⟩ := step_cases h
  cases a with
  | accepted ec =>
    obtain ⟨-, rfl⟩ := hcases
    rfl
  | handler i connected =>
    obtain ⟨handler, hi, rfl⟩ := hcases
    rw [sessions_onAccept]
    by_cases hstage : handler.stage = .asking 0
    · simp [turnOf, hi, hstage, run, Turn.run]
    · simp [turnOf, hi, hstage, run]
  | session i e =>
    obtain ⟨session, session', hi, hs', rfl⟩ := hcases
    simp [turnOf, run, Turn.run, hi, hs', setSession]

theorem own_turnOf (i : Nat) (s : Server) (a : Action) :
    (turnOf s a).bind (Turn.own i) = eventOf i a := by
  cases a with
  | accepted ec => rfl
  | handler j connected =>
    simp only [turnOf, eventOf]
    split <;> rfl
  | session j e => rfl

def Handler.isRearming (h : Handler) : Bool := h.stage == .rearming

def Handler.isConnection (h : Handler) : Bool := h.ec == 0

def Action.isConnection : Action → Bool
  | .accepted ec => ec == 0
  | _ => false

/-- Where the accepts and the connections are; a call that asks for the endpoint has looked at
the error. -/
structure Accounted (n connections : Nat) (s : Server) : Prop where
  accepting : s.accepting + s.handlers.countP Handler.isRearming = n
  connections : s.sessions.length + s.handlers.countP Handler.isConnection = connections
  checked : ∀ h ∈ s.handlers, ∀ left, h.stage = .asking left → h.ec = 0

section
variable {α : Type*} {l : List α} {i : Nat} {a : α}

theorem countP_eraseIdx_add (p : α → Bool) (h : l[i]? = some a) :
    [a].countP p + (l.eraseIdx i).countP p = l.countP p := by
  obtain ⟨hlt, rfl⟩ := List.getElem?_eq_some_iff.mp h
  rw [← List.countP_append, List.singleton_append,
    (List.getElem_cons_eraseIdx_perm hlt).countP_eq]

theorem countP_set_add (p : α → Bool) (h : l[i]? = some a) (b : α) :
    [a].countP p + (l.set i b).countP p = [b].countP p + l.countP p := by
  obtain ⟨hlt, -⟩ := List.getElem?_eq_some_iff.mp h
  have hset := (List.set_perm_cons_eraseIdx hlt b).countP_eq p
  rw [← List.singleton_append, List.countP_append] at hset
  rw [hset, ← countP_eraseIdx_add p h]
  omega

end

section
variable {n k : Nat} {s : Server} {i : Nat} {h : Handler}

theorem accounted_set (hs : Accounted n k s) (hi : s.handlers[i]? = some h) {accepting : Nat}
    {stage : Stage} (haccepting : accepting + [{ h with stage }].countP Handler.isRearming =
      s.accepting + [h].countP Handler.isRearming)
    (hchecked : ∀ left, stage = .asking left → h.ec = 0) :
    Accounted n k { s with accepting, handlers := s.handlers.set i { h with stage } } := by
  have hrearming := countP_set_add Handler.isRearming hi { h with stage }
  have hconnection := countP_set_add Handler.isConnection hi { h with stage }
  have hsame : [{ h with stage }].countP Handler.isConnection = [h].countP Handler.isConnection := rfl
  have haccounted := hs.accepting
  have hconnections := hs.connections
  refine ⟨by dsimp only; omega, by dsimp only; omega, fun other hmem left hstage => ?_⟩
  obtain hmem | rfl := List.mem_or_eq_of_mem_set hmem
  · exact hs.checked other hmem left hstage
  · exact hchecked left hstage

theorem accounted_erase (hs : Accounted n k s) (hi : s.handlers[i]? = some h)
    (hstage : h.stage ≠ .rearming) {sessions : List Session}
    (hsessions : sessions.length = s.sessions.length + [h].countP Handler.isConnection) :
    Accounted n k { s with handlers := s.handlers.eraseIdx i, sessions } := by
  have hrearming := countP_eraseIdx_add Handler.isRearming hi
  have hconnection := countP_eraseIdx_add Handler.isConnection hi
  have hnot : [h].countP Handler.isRearming = 0 := by simp [Handler.isRearming, hstage]
  have haccounted := hs.accepting
  have hconnections := hs.connections
  exact ⟨by dsimp only; omega, by dsimp only; omega,
    fun other hmem => hs.checked other (List.mem_of_mem_eraseIdx hmem)⟩

theorem accounted_onAccept (hs : Accounted n k s) (hi : s.handlers[i]? = some h)
    (connected : Bool) : Accounted n k (onAccept s i connected h) := by
  unfold onAccept
  split
  · next hstage =>
    exact accounted_set hs hi (by simp [Handler.isRearming, hstage]) (by simp)
  · next hstage =>
    split
    · next hec =>
      exact accounted_erase hs hi (by simp [hstage]) (by simp [Handler.isConnection, hec])
    · next hec =>
      exact accounted_set hs hi (by simp [Handler.isRearming, hstage]) fun _ _ => not_not.mp hec
  · next hstage =>
    have hec := hs.checked h (List.mem_of_getElem? hi) 0 hstage
    exact accounted_erase hs hi (by simp [hstage]) (by simp [Handler.isConnection, hec])
  · next left hstage =>
    have hec := hs.checked h (List.mem_of_getElem? hi) _ hstage
    split
    · exact accounted_set hs hi (by simp [Handler.isRearming, hstage]) fun _ _ => hec
    · exact ⟨hs.accepting, hs.connections, hs.checked⟩

end

theorem accounted_step {sch : Scheduler} {n k : Nat} {s t : Server} {a : Action}
    (hs : Accounted n k s) (h : step sch s a = some t) :
    Accounted n (k + [a].countP Action.isConnection) t := by
  have haccounted := hs.accepting
  have hconnections := hs.connections
  obtain ⟨-, hcases⟩ := step_cases h
  cases a with
  | accepted ec =>
    obtain ⟨hpos, rfl⟩ := hcases
    have hrearming : [({ ec } : Handler)].countP Handler.isRearming = 1 := rfl
    have hconnection : [({ ec } : Handler)].countP Handler.isConnection =
        [Action.accepted ec].countP Action.isConnection := rfl
    refine ⟨?_, ?_, List.forall_mem_append.mpr ⟨hs.checked, List.forall_mem_singleton.mpr ?_⟩⟩
    · dsimp only
      rw [List.countP_append]
      omega
    · dsimp only
      rw [List.countP_append]
      omega
    · exact fun left hstage => by cases hstage
  | handler i connected =>
    obtain ⟨handler, hi, rfl⟩ := hcases
    exact accounted_onAccept hs hi connected
  | session i e =>
    obtain ⟨session, session', hi, hs', rfl⟩ := hcases
    refine ⟨hs.accepting, ?_, hs.checked⟩
    have hnone : [Action.session i e].countP Action.isConnection = 0 := rfl
    rw [hnone, setSession, List.length_set]
    exact hconnections

/-- A run keeps the accounts, with the connections it accepts added. -/
theorem accounted_run {sch : Scheduler} {n : Nat} {actions : List Action} {s t : Server} {k : Nat}
    (hs : Accounted n k s) (hrun : run (step sch) s actions = some t) :
    Accounted n (k + actions.countP Action.isConnection) t := by
  induction actions generalizing s k with
  | nil =>
    cases hrun
    exact hs
  | cons a actions ih =>
    obtain ⟨s', hs', hrest⟩ := run_cons.mp hrun
    have hlater := ih (accounted_step hs hs') hrest
    rwa [Nat.add_assoc, ← List.countP_append] at hlater

theorem accounted_reachable {sch : Scheduler} {n : Nat} {actions : List Action} {t : Server}
    (hrun : run (step sch) (initial n) actions = some t) :
    Accounted n (actions.countP Action.isConnection) t := by
  have hinitial : Accounted n 0 (initial n) := ⟨by simp [initial], rfl, List.forall_mem_nil _⟩
  have hend := accounted_run hinitial hrun
  rwa [Nat.zero_add] at hend

/-- In every state the server can reach, the accepts started are as many as the calls made
of `async_accept`, up to those that are about to be started again; and every connection accepted
has its session or is still in the hands of its call of `on_accept`. -/
theorem accepts_accounted {sch : Scheduler} {n : Nat} {actions : List Action} {t : Server}
    (hrun : run (step sch) (initial n) actions = some t) :
    t.accepting + t.handlers.countP Handler.isRearming = n ∧
      t.sessions.length + t.handlers.countP Handler.isConnection =
        actions.countP Action.isConnection := by
  have hend := accounted_reachable hrun
  exact ⟨hend.accepting, hend.connections⟩

/-- One connection is in the hands of its call, another accept has failed. -/
theorem accepts_accounted_failed : ∃ t, run (step Segmentation.noRouter) (initial 2)
      [.accepted 0, .accepted 103, .handler 1 true, .handler 1 true] = some t ∧
    t.accepting + t.handlers.countP Handler.isRearming = 2 ∧
    t.sessions.length + t.handlers.countP Handler.isConnection = 1 := by
  obtain ⟨t, hrun⟩ : ∃ t, run (step Segmentation.noRouter) (initial 2)
      [.accepted 0, .accepted 103, .handler 1 true, .handler 1 true] = some t := ⟨_, rfl⟩
  exact ⟨t, hrun, accepts_accounted hrun⟩

/-- A head with a line that ends with its colon. -/
def colonHead : Str := "GET / HTTP/1.1\r\nab:\n".toList

/-- The read of such a head. -/
def colonRead : Completion where
  ec := 0
  bytes := (colonHead ++ crlf ++ crlf).length
  data := colonHead ++ crlf ++ crlf
  fits := by decide
  failed := fun h => absurd rfl h
  found := fun _ => ⟨colonHead, List.prefix_refl _, rfl⟩

/-- The steps of one connection whose peer is there and sends such a head, and of calls of
`on_accept` that are under way. -/
def OfConnection (j : Nat) : Action → Prop
  | .accepted ec => ec = 0
  | .handler _ connected => connected = true
  | .session i e => i = j ∧ (e = .completed colonRead ∨ e = .other .proceed)

def connection (i : Nat) : List Action := .accepted 0 :: List.replicate 7 (.handler i true)

theorem run_connection (sch : Scheduler) {s : Server} (hlive : s.crashed = false)
    (hpos : 0 < s.accepting) : run (step sch) s (connection s.handlers.length) =
      some { s with sessions := s.sessions ++ [IdleTimeout.initial true] } := by
  have hne : s.accepting ≠ 0 := Nat.ne_of_gt hpos
  have hback : s.accepting - 1 + 1 = s.accepting := Nat.sub_add_cancel hpos
  have herase : ∀ h, (s.handlers ++ [h]).eraseIdx s.handlers.length = s.handlers := fun h => by
    rw [List.eraseIdx_append_of_length_le (Nat.le_refl _), Nat.sub_self, List.eraseIdx_cons_zero,
      List.append_nil]
  simp [connection, List.replicate, run, step, onAccept, endpointCalls, hlive, hne, hback, herase]

theorem step_session {sch : Scheduler} {s : Server} {j : Nat} {session session' : Session}
    {e : HeadCompletion.Event} (hlive : s.crashed = false) (hj : s.sessions[j]? = some session)
    (h : HeadCompletion.step sch session e = some session') :
    step sch s (.session j e) = some (setSession s j session') := by
  simp [step, hlive, hj, h]

/-- The session reads such a head. -/
def readEvents : List HeadCompletion.Event :=
  [.other .proceed, .other .proceed, .completed colonRead, .other .proceed]

/-- The exception of the header parser leaves the handler. -/
theorem run_readEvents (sch : Scheduler) : ∃ session,
    run (HeadCompletion.step sch) (IdleTimeout.initial true) readEvents = some session ∧
      session.phase.isCrashed = true := by
  have hparse : Request.ofRaw (colonRead.headText.getD []) = .error .outOfRange := rfl
  obtain ⟨reading, hread⟩ : ∃ reading, run (HeadCompletion.step sch) (IdleTimeout.initial true)
      [.other .proceed, .other .proceed, .completed colonRead] = some reading ∧
        reading.phase = .accepted 0 (colonRead.headText.getD []) (colonRead.data.drop colonRead.bytes) :=
    ⟨_, rfl, rfl⟩
  refine ⟨parse sch reading 0 (colonRead.headText.getD []) (colonRead.data.drop colonRead.bytes),
    run_append.mpr ⟨reading, hread.1, ?_⟩, ?_⟩
  · simp [run, HeadCompletion.step, IdleTimeout.step, move, proceed, hread.2, Phase.isCrashed]
  · rw [isCrashed_parse, Unreadable, hparse]
    exact Or.inr trivial

theorem setSession_self {s : Server} {j : Nat} {session : Session} (hlive : s.crashed = false)
    (hj : s.sessions[j]? = some session) (hsession : session.phase.isCrashed = false) :
    setSession s j session = s := by
  obtain ⟨hlt, rfl⟩ := List.getElem?_eq_some_iff.mp hj
  rw [setSession, List.set_getElem_self, hsession, ← hlive]

/-- The events of one session alone are possible in a server that goes on. -/
theorem run_session {sch : Scheduler} {events : List HeadCompletion.Event} {s : Server} {j : Nat}
    {session session' : Session} (hlive : s.crashed = false)
    (hj : s.sessions[j]? = some session) (hsession : session.phase.isCrashed = false)
    (h : run (HeadCompletion.step sch) session events = some session') :
    run (step sch) s (events.map (.session j)) = some (setSession s j session') := by
  induction events generalizing s session with
  | nil =>
    cases h
    rw [setSession_self hlive hj hsession]
    rfl
  | cons e events ih =>
    obtain ⟨mid, he, hrest⟩ := run_cons.mp h
    have hstep := step_session hlive hj he
    obtain ⟨hlt, -⟩ := List.getElem?_eq_some_iff.mp hj
    cases hmid : mid.phase.isCrashed with
    | false =>
      have hlater := ih (s := setSession s j mid) hmid (List.getElem?_set_self hlt) hmid hrest
      have hset : setSession (setSession s j mid) j session' = setSession s j session' := by
        simp [setSession]
      exact run_cons.mpr ⟨_, hstep, by rw [hlater, hset]⟩
    | true =>
      cases events with
      | nil =>
        cases hrest
        exact run_cons.mpr ⟨_, hstep, rfl⟩
      | cons e' events =>
        obtain ⟨last, he', -⟩ := run_cons.mp hrest
        obtain ⟨a, ha⟩ := step_action he'
        simp [IdleTimeout.step, hmid] at ha

/-- A server that waits for a connection ends with one. -/
theorem connection_ends (sch : Scheduler) {s : Server} (hlive : s.crashed = false)
    (hpos : 0 < s.accepting) : ∃ t, run (step sch) s (connection s.handlers.length ++
      readEvents.map (Action.session s.sessions.length)) = some t ∧ t.crashed = true := by
  obtain ⟨session, hrun, hcrashed⟩ := run_readEvents sch
  have hread := run_session
    (s := { s with sessions := s.sessions ++ [IdleTimeout.initial true] }) hlive
    List.getElem?_concat_length rfl hrun
  exact ⟨_, run_append.mpr ⟨_, run_connection sch hlive hpos, hread⟩, hcrashed⟩

end RoutineHttp.Acceptor
