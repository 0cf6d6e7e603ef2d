import RoutineHttp.HeadCompletion

/-! The client's side of a session: requests are sent and responses read, for several calls at a
time, with the timer of the session and calls of `close` on other threads. -/
namespace RoutineHttp

/-- The constructor of a response from its text throws. -/
def Response.ofRaw (_rawHttp : Str) : Except Str Response := .error "Not impl".toList

namespace ClientSession
open Lib BodyLength
open HttpSession (hasLength isChunked contentLength)
open HeadCompletion (Completion maxSize)
open IdleTimeout (closeOperation notConnected)
open SessionSteps (CloseStage)

def invalidArgument : ErrorCode := 22

/-- Where a call of `send_request` is, up to the call of its callback. -/
inductive Phase where
  | thrown
  | writing
  | reading
  | accepted (c : Completion)
  | readingBody (response : Response) (buffer : Str)
  | closing (stage : CloseStage) (ec : ErrorCode) (response : Option Response)
  | calling (ec : ErrorCode) (response : Option Response)
  | done

def Phase.isDone : Phase → Bool
  | .done => true
  | _ => false

/-- A call of `send_request`, with a callback or without, and how it has been called. -/
structure Exchange where
  phase : Phase
  wanted : Bool
  calls : List (ErrorCode × Option Response) := []

/-- The calls, the reads whose start has been followed by no `run_timeout_timer` yet, whether a
wait is pending, the timeout handlers queued with success, and the calls of `close`. -/
structure Session where
  isOpen : Bool := true
  exchanges : List Exchange := []
  arming : Nat := 0
  pending : Bool := false
  expired : Nat := 0
  closers : List CloseStage := []
  crashed : Bool := false

inductive Action where
  | send (request : Option Request) (wanted : Bool) (queryOrder order : IterationOrder HeaderField)
  | close
  | written (i : Nat)
  | read (i : Nat) (c : Completion)
  | bodyRead (i : Nat) (ec : ErrorCode) (bytes : Str)
  | proceed (i : Nat)
  | arm
  | expire
  | timeout
  | closer (i : Nat)

def setPhase (s : Session) (i : Nat) (e : Exchange) (phase : Phase) : Session :=
  { s with exchanges := s.exchanges.set i { e with phase } }

def crash (s : Session) : Session := { s with crashed := true }

def addExchange (s : Session) (wanted : Bool) (phase : Phase) : Session :=
  { s with exchanges := s.exchanges ++ [{ phase, wanted }] }

/-- `send_request` up to the start of the write. What `prepare_request` throws goes to its
caller. -/
def sendRequest (s : Session) (request : Option Request) (wanted : Bool)
    (queryOrder order : IterationOrder HeaderField) : Session :=
  if s.isOpen then
    match request with
    | none => addExchange s wanted (.calling invalidArgument none)
    | some request => match request.prepareRequest queryOrder order with
      | .error .undefinedBehaviour => crash s
      | .error _ => addExchange s wanted .thrown
      | .ok _ => addExchange s wanted .writing
  else addExchange s wanted (.calling notConnected none)

/-- The write's handler, which ignores the error: `read_response` up to the start of the read,
behind which the timer is armed. -/
def readResponse (s : Session) (i : Nat) (e : Exchange) : Session :=
  if e.wanted then
    if s.isOpen then { setPhase s i e .reading with arming := s.arming + 1 }
    else setPhase s i e (.calling notConnected none)
  else setPhase s i e .done

/-- `is_errors`: with an error it closes, with an ignored one or none it looks at the socket. -/
def checkErrors (s : Session) (i : Nat) (e : Exchange) (ec : ErrorCode)
    (response : Option Response) (fine : Session) : Session :=
  { if isErrors ec true then setPhase s i e (.closing .check ec response)
    else if isErrors ec s.isOpen then setPhase s i e (.calling ec response) else fine with
    pending := false }

/-- `body()` hands out a copy of the pointer, and the storage assigned to it is lost. -/
def doPrepareBody (response : Response) : Response := response

def writeBody (fromString : Str → Option JsonValue) (s : Session) (i : Nat) (e : Exchange)
    (response : Response) (body : Str) : Session :=
  match response.body with
  | none => crash s
  | some storage => setPhase s i e
      (.calling 0 (some { response with body := some (storage.write fromString body) }))

/-- `do_read_body` up to the blocking read of what is missing. -/
def startBody (fromString : Str → Option JsonValue) (s : Session) (i : Nat) (e : Exchange)
    (response : Response) (buffer : Str) : Session :=
  match contentLength response.headers with
  | .error _ => crash s
  | .ok length =>
    if sizeSub length buffer.length > 0 then
      { setPhase s i e (.readingBody response buffer) with pending := true }
    else writeBody fromString s i e response buffer

/-- The rest of the head's handler, for a constructor of responses. -/
def parse (construct : Str → Except Str Response) (fromString : Str → Option JsonValue)
    (s : Session) (i : Nat) (e : Exchange) (c : Completion) : Session :=
  match c.headText with
  | none => crash s
  | some str => match construct str with
    | .error _ => crash s
    | .ok object =>
      if isChunked object.headers then setPhase s i e (.calling notSupported (some object))
      else if hasLength object.headers then
        startBody fromString s i e (doPrepareBody object) (c.data.drop c.bytes)
      else setPhase s i e (.calling 0 (some object))

def closeStep (s : Session) (i : Nat) (e : Exchange) (stage : CloseStage) (ec : ErrorCode)
    (response : Option Response) : Session :=
  match closeOperation s.isOpen stage with
  | none => crash s
  | some (isOpen, none) => setPhase { s with isOpen } i e (.calling ec response)
  | some (isOpen, some stage') => setPhase { s with isOpen } i e (.closing stage' ec response)

def callback (s : Session) (i : Nat) (e : Exchange) (ec : ErrorCode)
    (response : Option Response) : Session :=
  { s with exchanges := s.exchanges.set i { e with
      phase := .done, calls := if e.wanted then e.calls ++ [(ec, response)] else e.calls } }

def closerStep (s : Session) (i : Nat) (stage : CloseStage) : Session :=
  match closeOperation s.isOpen stage with
  | none => crash s
  | some (isOpen, none) => { s with isOpen, closers := s.closers.eraseIdx i }
  | some (isOpen, some stage') => { s with isOpen, closers := s.closers.set i stage' }

def proceed (construct : Str → Except Str Response) (fromString : Str → Option JsonValue)
    (s : Session) (i : Nat) (e : Exchange) : Option Session :=
  match e.phase with
  | .accepted c => some (parse construct fromString s i e c)
  | .closing stage ec response => some (closeStep s i e stage ec response)
  | .calling ec response => some (callback s i e ec response)
  | _ => none

def move (construct : Str → Except Str Response) (fromString : Str → Option JsonValue)
    (s : Session) : Action → Option Session
  | .send request wanted queryOrder order => some (sendRequest s request wanted queryOrder order)
  | .close => some { s with closers := s.closers ++ [.check] }
  | .written i => s.exchanges[i]?.bind fun e => match e.phase with
    | .writing => some (readResponse s i e)
    | _ => none
  | .read i c => s.exchanges[i]?.bind fun e => match e.phase with
    | .reading => some (checkErrors s i e c.ec none (setPhase s i e (.accepted c)))
    | _ => none
  | .bodyRead i ec bytes => s.exchanges[i]?.bind fun e => match e.phase with
    | .readingBody response buffer => some (checkErrors s i e ec (some response)
        (writeBody fromString s i e response (buffer ++ bytes)))
    | _ => none
  | .proceed i => s.exchanges[i]?.bind (proceed construct fromString s i)
  | .arm => if s.arming = 0 then none else some { s with arming := s.arming - 1, pending := true }
  | .expire => if s.pending then some { s with pending := false, expired := s.expired + 1 } else none
  | .timeout => if s.expired = 0 then none
    else some { s with expired := s.expired - 1, closers := s.closers ++ [.check] }
  | .closer i => s.closers[i]?.map (closerStep s i)

def step (construct : Str → Except Str Response) (fromString : Str → Option JsonValue)
    (s : Session) (a : Action) : Option Session :=
  if s.crashed then none else move construct fromString s a

section
variable (construct : Str → Except Str Response) (fromString : Str → Option JsonValue)

/-- What becomes of a response behind its head. -/
def Parsed (object : Response) (phase : Phase) : Prop :=
  phase = .calling notSupported (some object) ∨ phase = .calling 0 (some object) ∨
    (∃ buffer, phase = .readingBody object buffer) ∨
    ∃ storage body, object.body = some storage ∧
      phase = .calling 0 (some { object with body := some (storage.write fromString body) })

/-- The ways of one call from phase to phase. -/
inductive Moves (isOpen wanted : Bool) : Phase → Phase → Prop
  | unwanted : wanted = false → Moves isOpen wanted .writing .done
  | unconnected : Moves isOpen wanted .writing (.calling notConnected none)
  | reads : Moves isOpen wanted .writing .reading
  | fails (c : Completion) : isErrors c.ec true = true →
      Moves isOpen wanted .reading (.closing .check c.ec none)
  | refused (c : Completion) : isErrors c.ec true = false → isErrors c.ec isOpen = true →
      Moves isOpen wanted .reading (.calling c.ec none)
  | accepts (c : Completion) : isErrors c.ec isOpen = false →
      Moves isOpen wanted .reading (.accepted c)
  | parses (c : Completion) {str : Str} {object : Response} {phase : Phase} :
      c.headText = some str → construct str = .ok object → Parsed fromString object phase →
      Moves isOpen wanted (.accepted c) phase
  | bodyFails (response : Response) (buffer : Str) (ec : ErrorCode) : isErrors ec true = true →
      Moves isOpen wanted (.readingBody response buffer) (.closing .check ec (some response))
  | bodyRefused (response : Response) (buffer : Str) (ec : ErrorCode) :
      Moves isOpen wanted (.readingBody response buffer) (.calling ec (some response))
  | bodyWritten (response : Response) (buffer body : Str) {storage : BodyStorage} :
      response.body = some storage → Moves isOpen wanted (.readingBody response buffer)
        (.calling 0 (some { response with body := some (storage.write fromString body) }))
  | closes (stage stage' : CloseStage) (ec : ErrorCode) (response : Option Response) :
      Moves isOpen wanted (.closing stage ec response) (.closing stage' ec response)
  | closed (stage : CloseStage) (ec : ErrorCode) (response : Option Response) :
      Moves isOpen wanted (.closing stage ec response) (.calling ec response)

/-- One call goes on, or its callback is called. -/
def Goes (isOpen : Bool) (e e' : Exchange) : Prop :=
  (∃ phase, Moves construct fromString isOpen e.wanted e.phase phase ∧ e' = { e with phase }) ∨
    ∃ ec response, e.phase = .calling ec response ∧ e' = { e with
      phase := .done, calls := if e.wanted then e.calls ++ [(ec, response)] else e.calls }

/-- How a call may start. -/
def Starts (phase : Phase) : Prop :=
  phase = .thrown ∨ phase = .writing ∨ phase = .calling invalidArgument none ∨
    phase = .calling notConnected none

/-- A step leaves the calls as they are, adds one, or goes on with one, and never opens a
socket. -/
def Changes (s t : Session) : Prop :=
  (t.isOpen = s.isOpen ∨ t.isOpen = false) ∧
    (t.exchanges = s.exchanges ∨
      (∃ phase wanted, Starts phase ∧ t.exchanges = s.exchanges ++ [⟨phase, wanted, []⟩]) ∨
      ∃ i e e', s.exchanges[i]? = some e ∧ Goes construct fromString s.isOpen e e' ∧
        t.exchanges = s.exchanges.set i e')

end

section
variable {construct : Str → Except Str Response} {fromString : Str → Option JsonValue}
  {s t : Session} {i : Nat} {e : Exchange}

theorem Changes.of_eq (hopen : t.isOpen = s.isOpen ∨ t.isOpen = false)
    (h : t.exchanges = s.exchanges) : Changes construct fromString s t := ⟨hopen, Or.inl h⟩

theorem Changes.of_moves {phase : Phase} (hi : s.exchanges[i]? = some e)
    (hopen : t.isOpen = s.isOpen ∨ t.isOpen = false)
    (hmoves : Moves construct fromString s.isOpen e.wanted e.phase phase)
    (h : t.exchanges = s.exchanges.set i { e with phase }) : Changes construct fromString s t :=
  ⟨hopen, Or.inr (Or.inr ⟨i, e, _, hi, Or.inl ⟨phase, hmoves, rfl⟩, h⟩)⟩

theorem Changes.of_starts {wanted : Bool} {phase : Phase} (h : Starts phase) :
    Changes construct fromString s (addExchange s wanted phase) :=
  ⟨Or.inl rfl, Or.inr (Or.inl ⟨phase, wanted, h, rfl⟩)⟩

theorem changes_crash : Changes construct fromString s (crash s) := Changes.of_eq (Or.inl rfl) rfl

theorem changes_sendRequest (s : Session) (request : Option Request) (wanted : Bool)
    (queryOrder order : IterationOrder HeaderField) :
    Changes construct fromString s (sendRequest s request wanted queryOrder order) := by
  unfold sendRequest
  split
  · split
    · exact Changes.of_starts (by simp [Starts])
    · split
      · exact changes_crash
      · exact Changes.of_starts (by simp [Starts])
      · exact Changes.of_starts (by simp [Starts])
  · exact Changes.of_starts (by simp [Starts])

theorem changes_readResponse (hi : s.exchanges[i]? = some e) (hp : e.phase = .writing) :
    Changes construct fromString s (readResponse s i e) := by
  unfold readResponse
  split
  · split
    · exact Changes.of_moves hi (Or.inl rfl) (hp ▸ .reads) rfl
    · exact Changes.of_moves hi (Or.inl rfl) (hp ▸ .unconnected) rfl
  · next hw =>
    exact Changes.of_moves hi (Or.inl rfl) (hp ▸ .unwanted (Bool.eq_false_iff.mpr hw)) rfl

theorem isOpen_closeOperation {isOpen isOpen' : Bool} {stage : CloseStage}
    {next : Option CloseStage} (h : closeOperation isOpen stage = some (isOpen', next)) :
    isOpen' = isOpen ∨ isOpen' = false := by
  cases stage with
  | cancel =>
    cases isOpen with
    | true => cases h; exact Or.inl rfl
    | false => cases h
  | close => cases h; exact Or.inr rfl
  | _ => cases h; exact Or.inl rfl

theorem changes_checkErrors {ec : ErrorCode} {response : Option Response} {fine : Session}
    (hi : s.exchanges[i]? = some e)
    (hfails : isErrors ec true = true →
      Moves construct fromString s.isOpen e.wanted e.phase (.closing .check ec response))
    (hrefused : isErrors ec true = false → isErrors ec s.isOpen = true →
      Moves construct fromString s.isOpen e.wanted e.phase (.calling ec response))
    (hfine : isErrors ec s.isOpen = false → Changes construct fromString s fine) :
    Changes construct fromString s (checkErrors s i e ec response fine) := by
  unfold checkErrors
  split
  · next hec => exact Changes.of_moves hi (Or.inl rfl) (hfails hec) rfl
  · next hec =>
    split
    · next hshut =>
      exact Changes.of_moves hi (Or.inl rfl) (hrefused (Bool.eq_false_iff.mpr hec) hshut) rfl
    · next hopen => exact hfine (Bool.eq_false_iff.mpr hopen)

theorem changes_parse {c : Completion} (hi : s.exchanges[i]? = some e)
    (hp : e.phase = .accepted c) :
    Changes construct fromString s (parse construct fromString s i e c) := by
  unfold parse
  split
  · exact changes_crash
  · next str hstr =>
    split
    · exact changes_crash
    · next object hobject =>
      have hparsed : ∀ phase, Parsed fromString object phase →
          Changes construct fromString s (setPhase s i e phase) := fun phase h =>
        Changes.of_moves hi (Or.inl rfl) (hp ▸ .parses c hstr hobject h) rfl
      split
      · exact hparsed _ (Or.inl rfl)
      · split
        · unfold startBody
          split
          · exact changes_crash
          · split
            · exact hparsed (.readingBody object (c.data.drop c.bytes))
                (Or.inr (Or.inr (Or.inl ⟨_, rfl⟩)))
            · unfold writeBody
              split
              · exact changes_crash
              · next storage hstorage =>
                exact hparsed _ (Or.inr (Or.inr (Or.inr ⟨storage, _, hstorage, rfl⟩)))
        · exact hparsed _ (Or.inr (Or.inl rfl))

theorem changes_proceed (hi : s.exchanges[i]? = some e)
    (h : proceed construct fromString s i e = some t) : Changes construct fromString s t := by
  unfold proceed at h
  split at h
  · next c hp =>
    cases h
    exact changes_parse hi hp
  · next stage ec response hp =>
    cases h
    unfold closeStep
    split
    · exact changes_crash
    · next isOpen hclose =>
      exact Changes.of_moves hi (isOpen_closeOperation hclose) (hp ▸ .closed stage ec response) rfl
    · next isOpen stage' hclose =>
      exact Changes.of_moves hi (isOpen_closeOperation hclose)
        (hp ▸ .closes stage stage' ec response) rfl
  · next ec response hp =>
    cases h
    exact ⟨Or.inl rfl, Or.inr (Or.inr ⟨i, e, _, hi, Or.inr ⟨ec, response, hp, rfl⟩, rfl⟩)⟩
  · cases h

theorem changes_closerStep (s : Session) (i : Nat) (stage : CloseStage) :
    Changes construct fromString s (closerStep s i stage) := by
  unfold closerStep
  split
  · exact changes_crash
  · next isOpen hclose => exact Changes.of_eq (isOpen_closeOperation hclose) rfl
  · next isOpen stage' hclose => exact Changes.of_eq (isOpen_closeOperation hclose) rfl

theorem changes_step {a : Action} (h : step construct fromString s a = some t) :
    Changes construct fromString s t := by
  unfold step at h
  split at h
  · cases h
  · cases a with
    | send request wanted queryOrder order =>
      cases h
      exact changes_sendRequest s request wanted queryOrder order
    | close =>
      cases h
      exact Changes.of_eq (Or.inl rfl) rfl
    | written i =>
      obtain ⟨e, hi, hmap⟩ := Option.bind_eq_some_iff.mp h
      split at hmap
      · next hp =>
        cases hmap
        exact changes_readResponse hi hp
      · cases hmap
    | read i c =>
      obtain ⟨e, hi, hmap⟩ := Option.bind_eq_some_iff.mp h
      split at hmap
      · next hp =>
        cases hmap
        exact changes_checkErrors hi (fun hec => hp ▸ .fails c hec)
          (fun hec hshut => hp ▸ .refused c hec hshut)
          fun hfine => Changes.of_moves hi (Or.inl rfl) (hp ▸ .accepts c hfine) rfl
      · cases hmap
    | bodyRead i ec bytes =>
      obtain ⟨e, hi, hmap⟩ := Option.bind_eq_some_iff.mp h
      split at hmap
      · next response buffer hp =>
        cases hmap
        refine changes_checkErrors hi (fun hec => hp ▸ .bodyFails response buffer ec hec)
          (fun _ _ => hp ▸ .bodyRefused response buffer ec) fun _ => ?_
        unfold writeBody
        split
        · exact changes_crash
        · next storage hstorage =>
          exact Changes.of_moves hi (Or.inl rfl)
            (hp ▸ .bodyWritten response buffer (buffer ++ bytes) hstorage) rfl
      · cases hmap
    | proceed i =>
      obtain ⟨e, hi, hproceed⟩ := Option.bind_eq_some_iff.mp h
      exact changes_proceed hi hproceed
    | arm =>
      simp only [move] at h
      split at h
      · cases h
      · cases h
        exact Changes.of_eq (Or.inl rfl) rfl
    | expire =>
      simp only [move] at h
      split at h
      · cases h
        exact Changes.of_eq (Or.inl rfl) rfl
      · cases h
    | timeout =>
      simp only [move] at h
      split at h
      · cases h
      · cases h
        exact Changes.of_eq (Or.inl rfl) rfl
    | closer i =>
      obtain ⟨stage, hi, rfl⟩ := Option.map_eq_some_iff.mp h
      exact changes_closerStep s i stage

/-- What every call has at first, keeps as it goes on and keeps when the socket is closed, every
call has in every run. -/
theorem exchanges_run {p : Bool → Exchange → Prop}
    (hstarts : ∀ isOpen phase wanted, Starts phase → p isOpen ⟨phase, wanted, []⟩)
    (hgoes : ∀ isOpen e e', p isOpen e → Goes construct fromString isOpen e e' → p isOpen e')
    (hcloses : ∀ isOpen e, p isOpen e → p false e) {actions : List Action}
    (hs : ∀ e ∈ s.exchanges, p s.isOpen e)
    (hrun : run (step construct fromString) s actions = some t) :
    ∀ e ∈ t.exchanges, p t.isOpen e := by
  refine run_invariant (p := fun s => ∀ e ∈ s.exchanges, p s.isOpen e) (fun s a t hs h => ?_) hs hrun
  obtain ⟨hopen, hchange⟩ := changes_step h
  have hkept : ∀ e ∈ t.exchanges, p s.isOpen e := by
    obtain heq | ⟨phase, wanted, hstart, heq⟩ | ⟨i, e, e', hi, hgo, heq⟩ := hchange
    · rwa [heq]
    · rw [heq]
      exact List.forall_mem_append.mpr
        ⟨hs, List.forall_mem_singleton.mpr (hstarts s.isOpen phase wanted hstart)⟩
    · rw [heq]
      intro other hmem
      obtain hmem | rfl := List.mem_or_eq_of_mem_set hmem
      · exact hs other hmem
      · exact hgoes s.isOpen e _ (hs e (List.mem_of_getElem? hi)) hgo
  intro e he
  obtain heq | heq := hopen
  · rw [heq]
    exact hkept e he
  · rw [heq]
    exact hcloses s.isOpen e (hkept e he)

end

/-- A session before any call, connected or not. -/
def initial (isOpen : Bool) : Session := { isOpen }

section
variable {construct : Str → Except Str Response} {fromString : Str → Option JsonValue}
  {isOpen wanted : Bool} {phase phase' : Phase}

theorem isDone_moves (h : Moves construct fromString isOpen wanted phase phase') :
    phase.isDone = false ∧ (phase'.isDone && wanted) = false := by
  cases h with
  | unwanted hw => exact ⟨rfl, by rw [hw, Bool.and_false]⟩
  | parses c hstr hobject hparsed =>
    obtain rfl | rfl | ⟨buffer, rfl⟩ | ⟨storage, body, -, rfl⟩ := hparsed <;> exact ⟨rfl, rfl⟩
  | _ => exact ⟨rfl, rfl⟩

/-- Whatever the constructor of responses does: in every run, each call that is done has called
its callback exactly once if it was given one, and no other call has called it. -/
theorem called_once {actions : List Action} {t : Session}
    (hrun : run (step construct fromString) (initial isOpen) actions = some t) :
    ∀ e ∈ t.exchanges, e.calls.length = if e.phase.isDone && e.wanted then 1 else 0 := by
  refine exchanges_run (p := fun _ e => e.calls.length = if e.phase.isDone && e.wanted then 1 else 0)
    (fun _ phase wanted hstart => ?_) (fun _ e e' he hgo => ?_) (fun _ _ he => he)
    (List.forall_mem_nil _) hrun
  · obtain rfl | rfl | rfl | rfl := hstart <;> rfl
  · obtain ⟨phase, hmoves, rfl⟩ | ⟨ec, response, hp, rfl⟩ := hgo
    · obtain ⟨hbefore, hafter⟩ := isDone_moves hmoves
      rw [hbefore] at he
      rw [hafter]
      exact he
    · rw [hp] at he
      have hnone : e.calls = [] := List.eq_nil_of_length_eq_zero he
      cases e.wanted <;> simp [hnone, Phase.isDone]

/-- What a read completes with when the peer has closed the connection. -/
def endOfFile : Completion where
  ec := 2
  bytes := 0
  data := []
  fits := Nat.zero_le maxSize
  failed := fun _ => rfl
  found := fun h => absurd h (Nat.succ_ne_zero 1)

/-- What it completes with when a head has come. -/
def okHead : Completion where
  ec := 0
  bytes := 19
  data := "HTTP/1.1 200 Ok\r\n\r\n".toList
  fits := by decide
  failed := fun h => absurd rfl h
  found := fun _ => ⟨"HTTP/1.1 200 Ok".toList, List.prefix_refl _, rfl⟩

/-- A call whose response is being read. -/
def untilRead : List Action :=
  [.send (some Segmentation.getRequest.request) true (IterationOrder.stored _)
    (IterationOrder.stored _), .written 0, .arm]

/-- The peer closes the connection instead of sending a response. -/
def unanswered : List Action := untilRead ++ .read 0 endOfFile :: List.replicate 5 (.proceed 0)

theorem called_once_unanswered : ∃ t, run (step Response.ofRaw fun _ => none) (initial true)
      unanswered = some t ∧ t.exchanges.map Exchange.calls = [[(2, none)]] ∧
    ∀ e ∈ t.exchanges, e.calls.length = if e.phase.isDone && e.wanted then 1 else 0 := by
  obtain ⟨t, hrun, hcalls⟩ : ∃ t, run (step Response.ofRaw fun _ => none) (initial true)
      unanswered = some t ∧ t.exchanges.map Exchange.calls = [[(2, none)]] := ⟨_, rfl, rfl⟩
  exact ⟨t, hrun, hcalls, called_once hrun⟩

/-- The response a phase is about. -/
def Phase.response : Phase → Option Response
  | .readingBody response _ => some response
  | .closing _ _ response => response
  | .calling _ response => response
  | _ => none

def Bodiless (response : Option Response) : Prop := ∀ r, response = some r → r.body = none

theorem bodiless_none : Bodiless none := fun r h => by cases h

theorem bodiless_moves (hempty : ∀ str object, construct str = .ok object → object.body = none)
    (hs : Bodiless phase.response) (h : Moves construct fromString isOpen wanted phase phase') :
    Bodiless phase'.response := by
  cases h with
  | parses c hstr hobject hparsed =>
    have hbody := hempty _ _ hobject
    obtain rfl | rfl | ⟨buffer, rfl⟩ | ⟨storage, body, hstorage, -⟩ := hparsed
    · exact fun r hr => Option.some.inj hr ▸ hbody
    · exact fun r hr => Option.some.inj hr ▸ hbody
    · exact fun r hr => Option.some.inj hr ▸ hbody
    · rw [hbody] at hstorage
      cases hstorage
  | bodyFails response buffer ec hec => exact hs
  | bodyRefused response buffer ec => exact hs
  | bodyWritten response buffer body hstorage =>
    rw [hs response rfl] at hstorage
    cases hstorage
  | closes stage stage' ec response => exact hs
  | closed stage ec response => exact hs
  | _ => exact bodiless_none

/-- If the constructor of responses leaves the body empty, no callback ever gets a response with
a body: the storage that is to hold it is assigned to a copy of the pointer. -/
theorem body_lost (hempty : ∀ str object, construct str = .ok object → object.body = none)
    {actions : List Action} {t : Session}
    (hrun : run (step construct fromString) (initial isOpen) actions = some t) :
    ∀ e ∈ t.exchanges, ∀ call ∈ e.calls, Bodiless call.2 := by
  have hkept : ∀ e ∈ t.exchanges, Bodiless e.phase.response ∧ ∀ call ∈ e.calls, Bodiless call.2 := by
    refine exchanges_run
      (p := fun _ e => Bodiless e.phase.response ∧ ∀ call ∈ e.calls, Bodiless call.2)
      (fun _ phase wanted hstart => ⟨?_, List.forall_mem_nil _⟩) (fun _ e e' he hgo => ?_)
      (fun _ _ he => he) (List.forall_mem_nil _) hrun
    · obtain rfl | rfl | rfl | rfl := hstart <;> exact bodiless_none
    · obtain ⟨phase, hmoves, rfl⟩ | ⟨ec, response, hp, rfl⟩ := hgo
      · exact ⟨bodiless_moves hempty he.1 hmoves, he.2⟩
      · have hresponse := he.1
        rw [hp] at hresponse
        refine ⟨bodiless_none, ?_⟩
        dsimp only
        split
        · exact List.forall_mem_append.mpr ⟨he.2, List.forall_mem_singleton.mpr hresponse⟩
        · exact he.2
  exact fun e he => (hkept e he).2

/-- With a constructor that takes the head, the callback gets a response. -/
theorem body_lost_okHead : ∃ t, run (step (fun _ => .ok { status := .ok }) fun _ => none)
      (initial true) (untilRead ++ [.read 0 okHead, .proceed 0, .proceed 0]) = some t ∧
    ∀ e ∈ t.exchanges, ∀ call ∈ e.calls, Bodiless call.2 := by
  obtain ⟨t, hrun⟩ : ∃ t, run (step (fun _ => .ok { status := .ok }) fun _ => none) (initial true)
      (untilRead ++ [.read 0 okHead, .proceed 0, .proceed 0]) = some t := ⟨_, rfl⟩
  exact ⟨t, hrun, body_lost (fun str object h => by cases h; rfl) hrun⟩

/-- What a callback has been or will be called with: no response, and a success only when the
socket is closed. -/
def Unanswered (isOpen : Bool) : Phase → Prop
  | .readingBody _ _ => False
  | .closing _ ec response => ec ≠ 0 ∧ response = none
  | .calling ec response => response = none ∧ (ec = 0 → isOpen = false)
  | _ => True

theorem unanswered_moves (hs : Unanswered isOpen phase)
    (h : Moves Response.ofRaw fromString isOpen wanted phase phase') :
    Unanswered isOpen phase' := by
  cases h with
  | unconnected => exact ⟨rfl, fun h => by cases h⟩
  | fails c hec =>
    refine ⟨fun hzero => ?_, rfl⟩
    rw [hzero] at hec
    cases hec
  | refused c hec hshut =>
    refine ⟨rfl, fun hzero => ?_⟩
    rw [hzero] at hshut
    simpa [isErrors] using hshut
  | parses c hstr hobject hparsed => cases hobject
  | bodyFails response buffer ec hec => exact hs.elim
  | bodyRefused response buffer ec => exact hs.elim
  | bodyWritten response buffer body hstorage => exact hs.elim
  | closes stage stage' ec response => exact hs
  | closed stage ec response => exact ⟨hs.2, fun hzero => absurd hzero hs.1⟩
  | _ => trivial

/-- Nor has it been called otherwise. -/
def Unreplied (isOpen : Bool) (e : Exchange) : Prop :=
  Unanswered isOpen e.phase ∧ ∀ call ∈ e.calls, call.2 = none ∧ (call.1 = 0 → isOpen = false)

theorem unanswered_closed (hs : Unanswered isOpen phase) : Unanswered false phase := by
  cases phase with
  | calling ec response => exact ⟨hs.1, fun _ => rfl⟩
  | readingBody response buffer => exact hs
  | closing stage ec response => exact hs
  | _ => trivial

theorem unreplied_run {actions : List Action} {s t : Session}
    (hs : ∀ e ∈ s.exchanges, Unreplied s.isOpen e)
    (hrun : run (step Response.ofRaw fromString) s actions = some t) :
    ∀ e ∈ t.exchanges, Unreplied t.isOpen e := by
  refine exchanges_run (fun _ phase wanted hstart => ⟨?_, List.forall_mem_nil _⟩)
    (fun isOpen e e' he hgo => ?_) (fun isOpen e he => ⟨unanswered_closed he.1,
      fun call hcall => ⟨(he.2 call hcall).1, fun _ => rfl⟩⟩) hs hrun
  · obtain rfl | rfl | rfl | rfl := hstart
    · trivial
    · trivial
    · exact ⟨rfl, fun h => by cases h⟩
    · exact ⟨rfl, fun h => by cases h⟩
  · obtain ⟨phase, hmoves, rfl⟩ | ⟨ec, response, hp, rfl⟩ := hgo
    · exact ⟨unanswered_moves he.1 hmoves, he.2⟩
    · have hcall := he.1
      rw [hp] at hcall
      refine ⟨trivial, ?_⟩
      dsimp only
      split
      · exact List.forall_mem_append.mpr ⟨he.2, List.forall_mem_singleton.mpr hcall⟩
      · exact he.2

/-- No call ever gets a response. When its callback is told of a success, the socket had been
closed under a read that succeeded. -/
theorem never_responds {actions : List Action} {t : Session}
    (hrun : run (step Response.ofRaw fromString) (initial isOpen) actions = some t) :
    ∀ e ∈ t.exchanges, ∀ call ∈ e.calls, call.2 = none ∧ (call.1 = 0 → t.isOpen = false) :=
  fun e he => (unreplied_run (List.forall_mem_nil _) hrun e he).2

theorem never_responds_unanswered : ∃ t, run (step Response.ofRaw fun _ => none) (initial true)
      unanswered = some t ∧ ∀ e ∈ t.exchanges, ∀ call ∈ e.calls, call.2 = none := by
  obtain ⟨t, hrun⟩ : ∃ t, run (step Response.ofRaw fun _ => none) (initial true)
      unanswered = some t := ⟨_, rfl⟩
  exact ⟨t, hrun, fun e he call hcall => (never_responds hrun e he call hcall).1⟩

/-- A request without a path is written, the head's handler goes on, or `cancel` meets a closed
socket. -/
def Fatal (s : Session) : Action → Prop
  | .send request _ queryOrder order => s.isOpen = true ∧
      ∃ r, request = some r ∧ r.prepareRequest queryOrder order = .error .undefinedBehaviour
  | .proceed i => ∃ e, s.exchanges[i]? = some e ∧ ((∃ c, e.phase = .accepted c) ∨
      s.isOpen = false ∧ ∃ ec response, e.phase = .closing .cancel ec response)
  | .closer i => s.isOpen = false ∧ s.closers[i]? = some .cancel
  | _ => False

section
variable {s t : Session} {i : Nat} {e : Exchange}

theorem crashed_closerStep (hs : s.crashed = false) (stage : CloseStage) :
    (closerStep s i stage).crashed = true ↔ stage = .cancel ∧ s.isOpen = false := by
  cases hopen : s.isOpen <;> cases stage <;> simp [closerStep, closeOperation, crash, hs, hopen]

theorem crashed_closeStep (hs : s.crashed = false) (stage : CloseStage) (ec : ErrorCode)
    (response : Option Response) : (closeStep s i e stage ec response).crashed = true ↔
      stage = .cancel ∧ s.isOpen = false := by
  cases hopen : s.isOpen <;> cases stage <;>
    simp [closeStep, closeOperation, crash, setPhase, hs, hopen]

theorem crashed_sendRequest (hs : s.crashed = false) (request : Option Request) (wanted : Bool)
    (queryOrder order : IterationOrder HeaderField) :
    (sendRequest s request wanted queryOrder order).crashed = true ↔
      Fatal s (.send request wanted queryOrder order) := by
  unfold sendRequest Fatal
  cases hopen : s.isOpen with
  | false => simp [addExchange, hs]
  | true =>
    cases request with
    | none => simp [addExchange, hs]
    | some request =>
      cases hprepare : request.prepareRequest queryOrder order with
      | ok sent => simp [addExchange, hs, hprepare]
      | error fault => cases fault <;> simp [addExchange, crash, hs, hprepare]

theorem crashed_checkErrors {ec : ErrorCode} {response : Option Response} {fine : Session}
    (hs : s.crashed = false) (hfine : fine.crashed = false) :
    (checkErrors s i e ec response fine).crashed = false := by
  unfold checkErrors
  dsimp only
  split
  · exact hs
  · split
    · exact hs
    · exact hfine

theorem crashed_readResponse (hs : s.crashed = false) : (readResponse s i e).crashed = false := by
  unfold readResponse
  split
  · split <;> exact hs
  · exact hs

theorem crashed_proceed (hs : s.crashed = false) (hi : s.exchanges[i]? = some e)
    (h : proceed Response.ofRaw fromString s i e = some t) :
    t.crashed = true ↔ Fatal s (.proceed i) := by
  unfold proceed at h
  split at h
  · next c hp =>
    cases h
    have hcrash : parse Response.ofRaw fromString s i e c = crash s := by
      unfold parse
      split <;> rfl
    simp [Fatal, hcrash, crash, hi, hp]
  · next stage ec response hp =>
    cases h
    rw [crashed_closeStep hs]
    simp [Fatal, hi, hp, and_comm]
  · next ec response hp =>
    cases h
    simp [Fatal, callback, hs, hi, hp]
  · cases h

/-- A step ends the process exactly when it is one of those. -/
theorem crashed_step {a : Action} (hs : ∀ e ∈ s.exchanges, Unanswered s.isOpen e.phase)
    (h : step Response.ofRaw fromString s a = some t) : t.crashed = true ↔ Fatal s a := by
  unfold step at h
  split at h
  · cases h
  · next hlive =>
    replace hlive : s.crashed = false := Bool.eq_false_iff.mpr hlive
    cases a with
    | send request wanted queryOrder order =>
      cases h
      exact crashed_sendRequest hlive request wanted queryOrder order
    | close =>
      cases h
      simp [Fatal, hlive]
    | written i =>
      obtain ⟨e, hi, hmap⟩ := Option.bind_eq_some_iff.mp h
      split at hmap
      · cases hmap
        simp [Fatal, crashed_readResponse hlive]
      · cases hmap
    | read i c =>
      obtain ⟨e, hi, hmap⟩ := Option.bind_eq_some_iff.mp h
      split at hmap
      · cases hmap
        simp [Fatal, crashed_checkErrors, setPhase, hlive]
      · cases hmap
    | bodyRead i ec bytes =>
      obtain ⟨e, hi, hmap⟩ := Option.bind_eq_some_iff.mp h
      split at hmap
      · next response buffer hp =>
        have hnone := hs e (List.mem_of_getElem? hi)
        rw [hp] at hnone
        exact hnone.elim
      · cases hmap
    | proceed i =>
      obtain ⟨e, hi, hproceed⟩ := Option.bind_eq_some_iff.mp h
      exact crashed_proceed hlive hi hproceed
    | arm =>
      simp only [move] at h
      split at h
      · cases h
      · cases h
        simp [Fatal, hlive]
    | expire =>
      simp only [move] at h
      split at h
      · cases h
        simp [Fatal, hlive]
      · cases h
    | timeout =>
      simp only [move] at h
      split at h
      · cases h
      · cases h
        simp [Fatal, hlive]
    | closer i =>
      obtain ⟨stage, hi, rfl⟩ := Option.map_eq_some_iff.mp h
      rw [crashed_closerStep hlive]
      simp [Fatal, hi, and_comm]

end

/-- A client goes on exactly as long as no head handler goes on behind a read, whatever it has
read, no request without a path is written and no `cancel` meets a closed socket. -/
theorem client_lives_iff {actions : List Action} {t : Session}
    (hrun : run (step Response.ofRaw fromString) (initial isOpen) actions = some t) :
    t.crashed = false ↔
      Along (step Response.ofRaw fromString) (fun s a => ¬ Fatal s a) (initial isOpen) actions := by
  have hinitial : ∀ e ∈ (initial isOpen).exchanges, Unreplied (initial isOpen).isOpen e :=
    List.forall_mem_nil _
  have hcrashed : ∀ s a s', (∀ e ∈ s.exchanges, Unreplied s.isOpen e) →
      step Response.ofRaw fromString s a = some s' → (s'.crashed = true ↔ Fatal s a) :=
    fun s a s' hs h => crashed_step (fun e he => (hs e he).1) h
  have hkept : ∀ s a s', (∀ e ∈ s.exchanges, Unreplied s.isOpen e) ∧ s.crashed = false →
      ¬ Fatal s a → step Response.ofRaw fromString s a = some s' →
        (∀ e ∈ s'.exchanges, Unreplied s'.isOpen e) ∧ s'.crashed = false := fun s a s' hs hkept h =>
    ⟨@unreplied_run fromString [a] s s' hs.1 (run_cons.mpr ⟨s', h, rfl⟩),
      Bool.eq_false_iff.mpr fun hc => hkept ((hcrashed s a s' hs.1 h).mp hc)⟩
  have hspoil : ∀ s a s', (∀ e ∈ s.exchanges, Unreplied s.isOpen e) ∧ s.crashed = false →
      ¬ ¬ Fatal s a → step Response.ofRaw fromString s a = some s' → s'.crashed = true :=
    fun s a s' hs hfatal h => (hcrashed s a s' hs.1 h).mpr (not_not.mp hfatal)
  have hstays : ∀ s a s', s.crashed = true → step Response.ofRaw fromString s a = some s' →
      s'.crashed = true := fun s a s' hs h => by simp [step, hs] at h
  have hnot : ∀ s : Session, s.crashed = true →
      ¬ ((∀ e ∈ s.exchanges, Unreplied s.isOpen e) ∧ s.crashed = false) :=
    fun s hs hp => by rw [hp.2] at hs; cases hs
  rw [← run_iff_along hkept hspoil hstays hnot ⟨hinitial, rfl⟩ hrun]
  exact ⟨fun hlive => ⟨unreplied_run hinitial hrun, hlive⟩, fun h => h.2⟩

/-- The head of a response ends the client. -/
theorem client_lives_iff_okHead : ¬ Along (step Response.ofRaw fun _ => none) (fun s a => ¬ Fatal s a)
    (initial true) (untilRead ++ [.read 0 okHead, .proceed 0]) := by
  obtain ⟨t, hrun, hcrashed⟩ : ∃ t, run (step Response.ofRaw fun _ => none) (initial true)
      (untilRead ++ [.read 0 okHead, .proceed 0]) = some t ∧ t.crashed = true := ⟨_, rfl, rfl⟩
  intro halong
  rw [(client_lives_iff hrun).mpr halong] at hcrashed
  cases hcrashed

end
end ClientSession
end RoutineHttp
