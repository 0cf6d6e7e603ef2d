import RoutineHttp.Acceptor

/-! The threads of the context. The handler of a completed accept, of a completed head read or of
an expired wait begins on one of them, and a handler that waits for a body keeps its thread. -/
namespace RoutineHttp.IoThreads
open Lib BodyLength IdleTimeout HeadCompletion Acceptor
open SessionSteps (CloseStage)

/-- A thread is in the blocking read of the session. -/
def awaitsBody (session : Session) : Bool :=
  match session.phase with
  | .readingBody _ _ => true
  | _ => false

def blocked (s : Server) : Nat := s.sessions.countP awaitsBody

/-- A handler begins. -/
def begins : Acceptor.Action → Bool
  | .accepted _ => true
  | .session _ (.completed _) => true
  | .session _ (.other (.timeout _)) => true
  | _ => false

/-- A blocking read gets its bytes or an error. -/
def bringsBody : Acceptor.Action → Bool
  | .session _ (.other (.bodyRead _ _)) => true
  | _ => false

/-- The server on so many threads of the context: a handler cannot begin while a blocking read
has each of them. -/
def step (sch : Scheduler) (threads : Nat) (s : Server) (a : Acceptor.Action) : Option Server :=
  if begins a && decide (threads ≤ blocked s) then none else Acceptor.step sch s a

/-- The operations a `close` still has to make. -/
def closeWeight : CloseStage → Nat
  | .check => 4
  | .cancel => 3
  | .shutdown => 2
  | .close => 1

/-- A bound on the steps of the chain of calls up to its next read. -/
def phaseWeight : Phase → Nat
  | .crashed => 0
  | .starting => 8
  | .opening => 7
  | .accepted _ _ _ => 14
  | .handing _ request => if request.isSome then 13 else 6
  | .queued _ => 12
  | .sending _ => 11
  | .responded _ => 9
  | .closing stage next => closeWeight stage + phaseWeight next
  | _ => 1

/-- And on those of the timer and of the calls of `close`. -/
def weight (s : Session) : Nat :=
  phaseWeight s.phase + 2 * s.arming.length + s.pending.toList.length +
    (s.closers.map fun closer => closeWeight closer.2).sum

def handlerWeight (h : Handler) : Nat :=
  match h.stage with
  | .rearming => 15
  | .checking => 14
  | .asking left => left + 9

def serverWeight (s : Server) : Nat :=
  (s.handlers.map handlerWeight).sum + (s.sessions.map weight).sum + (!s.crashed).toNat

section
variable {sch : Scheduler} {s t : Session}

theorem closeWeight_pos (stage : CloseStage) : 0 < closeWeight stage := by
  cases stage <;> decide

theorem closeWeight_next {isOpen isOpen' : Bool} {stage stage' : CloseStage}
    (h : closeOperation isOpen stage = some (isOpen', some stage')) :
    closeWeight stage' < closeWeight stage := by
  cases stage <;> cases isOpen <;> simp [closeOperation] at h <;> obtain ⟨-, rfl⟩ := h <;> decide

theorem weight_closeStep {stage : CloseStage} {next : Phase} (hp : s.phase = .closing stage next) :
    weight (closeStep s stage next) < weight s := by
  have hpos := closeWeight_pos stage
  unfold closeStep
  split
  · simp only [weight, hp, phaseWeight]
    omega
  · simp only [weight, hp, phaseWeight]
    omega
  · next hclose =>
    have hless := closeWeight_next hclose
    simp only [weight, hp, phaseWeight]
    omega

theorem sum_eraseIdx {α : Type*} (f : α → Nat) {l : List α} {i : Nat} {a : α}
    (h : l[i]? = some a) : f a + ((l.eraseIdx i).map f).sum = (l.map f).sum := by
  obtain ⟨hlt, rfl⟩ := List.getElem?_eq_some_iff.mp h
  rw [← ((List.getElem_cons_eraseIdx_perm hlt).map f).sum_eq, List.map_cons, List.sum_cons]

theorem sum_set {α : Type*} (f : α → Nat) {l : List α} {i : Nat} {a : α} (h : l[i]? = some a)
    (b : α) : f a + ((l.set i b).map f).sum = f b + (l.map f).sum := by
  obtain ⟨hlt, -⟩ := List.getElem?_eq_some_iff.mp h
  have hset := ((List.set_perm_cons_eraseIdx hlt b).map f).sum_eq
  rw [List.map_cons, List.sum_cons] at hset
  have herase := sum_eraseIdx f h
  omega

theorem phaseWeight_pos {phase : Phase} (h : phase.isCrashed = false) : 0 < phaseWeight phase := by
  induction phase with
  | handing ec request => cases request <;> simp [phaseWeight]
  | closing stage next ih =>
    have hpos := closeWeight_pos stage
    simp only [phaseWeight]
    omega
  | crashed => cases h
  | _ => simp [phaseWeight]

theorem weight_closerStep {i : Nat} {wait : Wait} {stage : CloseStage}
    (hlive : s.phase.isCrashed = false) (hi : s.closers[i]? = some (wait, stage)) :
    weight (closerStep s i wait stage) < weight s := by
  have hpos := closeWeight_pos stage
  unfold closerStep
  split
  · have hphase := phaseWeight_pos hlive
    simp only [weight, phaseWeight]
    omega
  · have hsum := sum_eraseIdx (fun closer => closeWeight closer.2) hi
    simp only [weight] at hsum ⊢
    omega
  · next stage' hclose =>
    have hless := closeWeight_next hclose
    have hsum := sum_set (fun closer => closeWeight closer.2) hi (wait, stage')
    simp only [weight] at hsum ⊢
    omega

theorem phaseWeight_bodyWritten (sch : Scheduler) (request : Request) (body : Str) :
    phaseWeight (bodyWritten sch request body) ≤ 13 := by
  unfold bodyWritten
  split <;> simp [phaseWeight]

theorem weight_parse {ec : ErrorCode} {str buffer : Str} (hp : s.phase = .accepted ec str buffer) :
    weight (parse sch s ec str buffer) < weight s := by
  have hstart : ∀ request, weight (startBody sch s request buffer) < weight s := by
    intro request
    have hwritten := phaseWeight_bodyWritten sch request buffer
    unfold startBody
    split
    · simp only [weight, hp, phaseWeight]
      omega
    · split
      · simp only [weight, hp, phaseWeight, runTimeoutTimer, Option.toList_some,
          List.length_singleton]
        omega
      · simp only [weight, hp, phaseWeight]
        omega
  unfold parse
  split
  · simp only [weight, hp, phaseWeight]
    omega
  · split
    · simp only [weight, hp, phaseWeight]
      omega
    · split
      · simp only [weight, hp, phaseWeight, Option.isSome_some, if_true]
        omega
      · split
        · exact hstart _
        · simp only [weight, hp, phaseWeight, Option.isSome_some, if_true]
          omega

theorem weight_checkErrors {ec : ErrorCode} {failed fine : Phase}
    (hfailed : phaseWeight failed + 4 < phaseWeight s.phase)
    (hfine : isErrors ec s.isOpen = false → phaseWeight fine < phaseWeight s.phase) :
    weight (checkErrors s ec failed fine) < weight s := by
  have hpending : (none : Option Wait).toList.length = 0 := rfl
  unfold checkErrors cancelTimer
  dsimp only
  split
  · simp only [weight, phaseWeight, closeWeight, hpending]
    omega
  · split
    · simp only [weight, hpending]
      omega
    · next hopen =>
      have hless := hfine (Bool.eq_false_iff.mpr hopen)
      simp only [weight, hpending]
      omega

theorem weight_proceed (hs : Refused s.isOpen s.phase) (h : proceed sch s s.phase = some t) :
    weight t < weight s := by
  cases hp : s.phase with
  | starting =>
    rw [hp] at h
    cases h
    have hpending : (none : Option Wait).toList.length = 0 := rfl
    simp only [weight, cancelTimer, hp, phaseWeight, hpending]
    omega
  | opening =>
    rw [hp] at h
    cases h
    unfold startRead
    split
    · simp only [weight, hp, phaseWeight, List.length_append, List.length_singleton]
      omega
    · simp only [weight, hp, phaseWeight, Option.isSome_none, Bool.false_eq_true, if_false]
      omega
  | accepted ec str buffer =>
    rw [hp] at h
    cases h
    exact weight_parse hp
  | handing ec request =>
    rw [hp] at h hs
    cases h
    cases request with
    | none =>
      have hrefused : isErrors ec s.isOpen = true := hs
      refine weight_checkErrors (by simp [hp, phaseWeight]) fun hfine => ?_
      rw [hrefused] at hfine
      cases hfine
    | some request => exact weight_checkErrors (by simp [hp, phaseWeight]) fun _ => by simp [hp, phaseWeight]
  | sending request =>
    rw [hp] at h
    cases h
    simp only [weight, runTimeoutTimer, hp, phaseWeight, Option.toList_some, List.length_singleton]
    omega
  | responded request =>
    rw [hp] at h
    cases h
    split
    · simp only [weight, hp, phaseWeight, closeWeight]
      omega
    · simp only [weight, hp, phaseWeight]
      omega
  | closing stage next =>
    rw [hp] at h
    cases h
    exact weight_closeStep hp
  | reading => rw [hp] at h; cases h
  | readingBody request buffer => rw [hp] at h; cases h
  | queued request => rw [hp] at h; cases h
  | dropped => rw [hp] at h; cases h
  | finished => rw [hp] at h; cases h
  | crashed => rw [hp] at h; cases h

/-- An event that neither begins a handler nor brings a body. -/
def continues : HeadCompletion.Event → Bool
  | .completed _ => false
  | .other (.timeout _) => false
  | .other (.bodyRead _ _) => false
  | _ => true

theorem weight_step {e : HeadCompletion.Event} (hs : Refused s.isOpen s.phase)
    (he : continues e = true) (h : HeadCompletion.step sch s e = some t) :
    weight t < weight s := by
  obtain ⟨a, ha⟩ := step_action h
  have hlive : s.phase.isCrashed = false := by
    by_contra hcrashed
    simp [IdleTimeout.step, hcrashed] at ha
  cases e with
  | completed c => cases he
  | other a =>
    cases a with
    | proceed => exact weight_proceed hs (IdleTimeout.step_cases h)
    | headRead ec str buffer => cases h
    | bodyRead ec read => cases he
    | sendResponse now =>
      obtain ⟨request, hp, rfl⟩ := IdleTimeout.step_cases h
      have hless : phaseWeight (responsePhase sch s.isOpen now request) < phaseWeight s.phase := by
        unfold responsePhase
        rw [hp]
        split
        · simp [phaseWeight]
        · split
          · split <;> simp [phaseWeight]
          · simp [phaseWeight]
      simp only [weight]
      omega
    | arm i =>
      obtain ⟨round, hi, rfl⟩ := IdleTimeout.step_cases h
      obtain ⟨hlt, -⟩ := List.getElem?_eq_some_iff.mp hi
      have hone : ∀ wait : Wait, (some wait).toList.length = 1 := fun wait => rfl
      simp only [weight, runTimeoutTimer, hone, List.length_eraseIdx_of_lt hlt]
      omega
    | expire =>
      obtain ⟨wait, hpending, rfl⟩ := IdleTimeout.step_cases h
      have hnone : (none : Option Wait).toList.length = 0 := rfl
      have hone : (some wait).toList.length = 1 := rfl
      simp only [weight, cancelTimer, hpending, hnone, hone]
      omega
    | timeout i => cases he
    | closer i =>
      obtain ⟨wait, stage, hi, rfl⟩ := IdleTimeout.step_cases h
      exact weight_closerStep hlive hi

/-- A thread stays in its blocking read. -/
theorem awaitsBody_step {e : HeadCompletion.Event} (hs : awaitsBody s = true)
    (he : continues e = true) (h : HeadCompletion.step sch s e = some t) :
    awaitsBody t = true ∨ t.phase.isCrashed = true := by
  unfold awaitsBody at hs
  split at hs
  · next request buffer hp =>
    cases e with
    | completed c => cases he
    | other a =>
      cases a with
      | proceed =>
        have hproceed := IdleTimeout.step_cases (a := .proceed) h
        simp only [hp, proceed] at hproceed
        cases hproceed
      | headRead ec str buffer => cases h
      | bodyRead ec read => cases he
      | sendResponse now =>
        obtain ⟨request', hp', rfl⟩ := IdleTimeout.step_cases h
        rw [hp] at hp'
        cases hp'
      | arm i =>
        obtain ⟨round, -, rfl⟩ := IdleTimeout.step_cases h
        simp [awaitsBody, runTimeoutTimer, hp]
      | expire =>
        obtain ⟨wait, -, rfl⟩ := IdleTimeout.step_cases h
        simp [awaitsBody, cancelTimer, hp]
      | timeout i => cases he
      | closer i =>
        obtain ⟨wait, stage, -, rfl⟩ := IdleTimeout.step_cases h
        unfold closerStep
        split
        · exact Or.inr rfl
        · simp [awaitsBody, hp]
        · simp [awaitsBody, hp]
  · cases hs

end

section
variable {sch : Scheduler} {threads : Nat} {s t : Server} {a : Acceptor.Action}

theorem weight_setStage {i accepting : Nat} {h : Handler} {stage : Stage}
    (hi : s.handlers[i]? = some h) (hless : handlerWeight { h with stage } < handlerWeight h) :
    serverWeight { s with accepting, handlers := s.handlers.set i { h with stage } } <
      serverWeight s := by
  have hsum := sum_set handlerWeight hi { h with stage }
  simp only [serverWeight]
  omega

theorem weight_onAccept {i : Nat} {h : Handler} (connected : Bool) (hlive : s.crashed = false)
    (hi : s.handlers[i]? = some h) :
    serverWeight (onAccept s i connected h) < serverWeight s := by
  have herase := sum_eraseIdx handlerWeight hi
  unfold onAccept
  split
  · next hstage => exact weight_setStage hi (by simp [handlerWeight, hstage])
  · next hstage =>
    split
    · simp only [handlerWeight, hstage] at herase
      simp only [serverWeight]
      omega
    · exact weight_setStage hi (by simp [handlerWeight, hstage, endpointCalls])
  · next hstage =>
    have hfresh : weight (IdleTimeout.initial true) = 8 := rfl
    simp only [handlerWeight, hstage] at herase
    simp only [serverWeight, List.map_append, List.map_singleton, List.sum_append,
      List.sum_singleton, hfresh]
    omega
  · next left hstage =>
    split
    · exact weight_setStage hi (by simp [handlerWeight, hstage])
    · simp [serverWeight, hlive]

theorem weight_setSession {i : Nat} {session session' : Session} (hlive : s.crashed = false)
    (hi : s.sessions[i]? = some session) (hless : weight session' < weight session) :
    serverWeight (setSession s i session') < serverWeight s := by
  have hsum := sum_set weight hi session'
  have hcrashed := Bool.toNat_le (!session'.phase.isCrashed)
  have hone : (!s.crashed).toNat = 1 := by rw [hlive]; rfl
  simp only [serverWeight, setSession]
  omega

/-- No action that begins a handler, and none that brings a body. -/
theorem continues_of {i : Nat} {e : HeadCompletion.Event}
    (hbegins : begins (.session i e) = false) (hbody : bringsBody (.session i e) = false) :
    continues e = true := by
  cases e with
  | completed c => cases hbegins
  | other a =>
    cases a with
    | timeout i => cases hbegins
    | bodyRead ec read => cases hbody
    | _ => rfl

/-- While blocking reads have all threads, a step without a body begins no handler, brings the
rest of the server closer to its end, and leaves the threads where they are. -/
theorem frozen_step (hs : SessionsSound s) (hblocked : threads ≤ blocked s)
    (hbody : bringsBody a = false) (h : step sch threads s a = some t) :
    begins a = false ∧ Acceptor.step sch s a = some t ∧ serverWeight t < serverWeight s ∧
      (t.crashed = true ∨ threads ≤ blocked t) := by
  have hbegins : begins a = false := by
    by_contra hb
    rw [Bool.not_eq_false] at hb
    simp [step, hb, hblocked] at h
  have hstep : Acceptor.step sch s a = some t := by
    simpa [step, hbegins] using h
  obtain ⟨hlive, hcases⟩ := Acceptor.step_cases hstep
  refine ⟨hbegins, hstep, ?_⟩
  cases a with
  | accepted ec => cases hbegins
  | handler i connected =>
    obtain ⟨handler, hi, rfl⟩ := hcases
    refine ⟨weight_onAccept connected hlive hi, Or.inr ?_⟩
    rw [blocked, sessions_onAccept]
    split
    · rw [List.countP_append]
      exact hblocked.trans (Nat.le_add_right _ _)
    · exact hblocked
  | session i e =>
    obtain ⟨session, session', hi, hs', rfl⟩ := hcases
    have he := continues_of hbegins hbody
    have hrefused := (hs session (List.mem_of_getElem? hi)).1
    refine ⟨weight_setSession hlive hi (weight_step hrefused he hs'), ?_⟩
    have hcount := countP_set_add awaitsBody hi session'
    have hpart : (setSession s i session').crashed = true ∨
        [session].countP awaitsBody ≤ [session'].countP awaitsBody := by
      cases hawaits : awaitsBody session with
      | false => exact Or.inr (by simp [hawaits])
      | true =>
        obtain hawaits' | hcrashed := awaitsBody_step hawaits he hs'
        · exact Or.inr (by simp [hawaits, hawaits'])
        · exact Or.inl hcrashed
    obtain hcrashed | hle := hpart
    · exact Or.inl hcrashed
    · right
      simp only [blocked, setSession] at hblocked ⊢
      omega

theorem sessionsSound_of_step (hs : SessionsSound s) (h : step sch threads s a = some t) :
    SessionsSound t := by
  unfold step at h
  split at h
  · cases h
  · exact sessionsSound_step hs h

theorem sessionsSound_reachable {n : Nat} {before : List Acceptor.Action}
    (hreach : run (step sch threads) (Acceptor.initial n) before = some s) : SessionsSound s := by
  have hinitial : SessionsSound (Acceptor.initial n) := List.forall_mem_nil _
  exact run_invariant (fun _ _ _ hs h => sessionsSound_of_step hs h) hinitial hreach

theorem frozen_run {actions : List Acceptor.Action} (hsound : SessionsSound s)
    (hblocked : threads ≤ blocked s) (hrun : run (step sch threads) s actions = some t)
    (hbody : ∀ a ∈ actions, bringsBody a = false) :
    (∀ a ∈ actions, begins a = false) ∧ actions.length + serverWeight t ≤ serverWeight s ∧
      (t.crashed = true ∨ threads ≤ blocked t) := by
  induction actions generalizing s with
  | nil =>
    cases hrun
    exact ⟨List.forall_mem_nil _, by simp, Or.inr hblocked⟩
  | cons a actions ih =>
    obtain ⟨s', hs', hrest⟩ := run_cons.mp hrun
    obtain ⟨ha, hall⟩ := List.forall_mem_cons.mp hbody
    obtain ⟨hbegins, -, hless, hend⟩ := frozen_step hsound hblocked ha hs'
    obtain hcrashed | hblocked' := hend
    · cases actions with
      | nil =>
        cases hrest
        refine ⟨List.forall_mem_singleton.mpr hbegins, ?_, Or.inl hcrashed⟩
        simp only [List.length_singleton]
        omega
      | cons b actions =>
        obtain ⟨u, hu, -⟩ := run_cons.mp hrest
        simp [step, Acceptor.step, hcrashed] at hu
    · obtain ⟨hothers, hlength, hfinal⟩ :=
        ih (sessionsSound_of_step hsound hs') hblocked' hrest hall
      refine ⟨List.forall_mem_cons.mpr ⟨hbegins, hothers⟩, ?_, hfinal⟩
      simp only [List.length_cons]
      omega

/-- Once blocking reads have all the threads of a server, then as long as no body comes in,
whatever else happens in whatever order: no accept, no head and no timeout is handled any more,
and the server makes no more than so many steps before it stands still. -/
theorem frozen {n : Nat} {before actions : List Acceptor.Action}
    (hreach : run (step sch threads) (Acceptor.initial n) before = some s)
    (hblocked : threads ≤ blocked s) (hrun : run (step sch threads) s actions = some t)
    (hbody : ∀ a ∈ actions, bringsBody a = false) :
    (∀ a ∈ actions, begins a = false) ∧ actions.length + serverWeight t ≤ serverWeight s ∧
      (t.crashed = true ∨ threads ≤ blocked t) :=
  frozen_run (sessionsSound_reachable hreach) hblocked hrun hbody

end

/-- The head of a request whose body has a byte. -/
def postHead : Str := "POST / HTTP/1.1\r\nContent-Length: 1".toList

def postRead : Completion where
  ec := 0
  bytes := (postHead ++ crlf ++ crlf).length
  data := postHead ++ crlf ++ crlf
  fits := by decide
  failed := fun h => absurd rfl h
  found := fun _ => ⟨postHead, List.prefix_refl _, rfl⟩

/-- A connection whose peer sends such a head and no body. -/
def withheld (i j : Nat) : List Acceptor.Action :=
  connection i ++ [.session j (.other .proceed), .session j (.other .proceed),
    .session j (.completed postRead), .session j (.other .proceed)]

/-- The wait for a body expires, and its handler has no thread to run on. -/
theorem frozen_expired : ∃ s t, run (step Segmentation.noRouter 1) (Acceptor.initial 1)
      (withheld 0 0) = some s ∧
    run (step Segmentation.noRouter 1) s [.session 0 (.other .expire)] = some t ∧
    (t.crashed = true ∨ 1 ≤ blocked t) := by
  obtain ⟨s, t, hs, hblocked, ht⟩ : ∃ s t,
      run (step Segmentation.noRouter 1) (Acceptor.initial 1) (withheld 0 0) = some s ∧
        1 ≤ blocked s ∧
        run (step Segmentation.noRouter 1) s [.session 0 (.other .expire)] = some t :=
    ⟨_, _, rfl, by decide, rfl⟩
  have hbody : ∀ a ∈ [Acceptor.Action.session 0 (.other .expire)], bringsBody a = false :=
    List.forall_mem_singleton.mpr rfl
  exact ⟨s, t, hs, ht, (frozen hs hblocked ht hbody).2.2⟩

section
variable {sch : Scheduler} {threads : Nat} {s t : Server} {a : Acceptor.Action}

theorem step_eq (h : begins a = true → blocked s < threads) :
    step sch threads s a = Acceptor.step sch s a := by
  unfold step
  split
  · next hguard =>
    obtain ⟨hbegins, hle⟩ := Bool.and_eq_true_iff.mp hguard
    exact absurd (of_decide_eq_true hle) (Nat.not_le.mpr (h hbegins))
  · rfl

theorem run_eq {actions : List Acceptor.Action} (h : ∀ a ∈ actions, begins a = false) :
    run (step sch threads) s actions = run (Acceptor.step sch) s actions := by
  induction actions generalizing s with
  | nil => rfl
  | cons a actions ih =>
    obtain ⟨ha, hall⟩ := List.forall_mem_cons.mp h
    rw [run, run, step_eq fun hbegins => by rw [ha] at hbegins; cases hbegins]
    cases Acceptor.step sch s a with
    | none => rfl
    | some s' => exact ih hall

end

/-- Whatever is routed, the handler of such a head waits for the body. -/
theorem run_postRead (sch : Scheduler) : ∃ reading accepted waiting,
    run (HeadCompletion.step sch) (IdleTimeout.initial true) [.other .proceed, .other .proceed] =
        some reading ∧ awaitsBody reading = false ∧ reading.phase.isCrashed = false ∧
      HeadCompletion.step sch reading (.completed postRead) = some accepted ∧
      awaitsBody accepted = false ∧ accepted.phase.isCrashed = false ∧
      HeadCompletion.step sch accepted (.other .proceed) = some waiting ∧
      awaitsBody waiting = true := by
  obtain ⟨object, hparse, hlength, hread⟩ : ∃ object,
      Request.ofRaw (postRead.headText.getD []) = .ok object ∧
        HttpSession.hasLength object.headers = true ∧
        HttpSession.contentLength object.headers = .ok 1 := ⟨_, rfl, rfl, rfl⟩
  have hchunked : HttpSession.isChunked object.headers = false := by
    rw [HttpSession.isChunked, hlength]
    rfl
  have hheaders := (Segmentation.doPrepareBody_head sch object).2.2.2
  obtain ⟨reading, accepted, hrun, hawaits, hlive, hstep, hphase⟩ : ∃ reading accepted,
      run (HeadCompletion.step sch) (IdleTimeout.initial true) [.other .proceed, .other .proceed] =
          some reading ∧ awaitsBody reading = false ∧ reading.phase.isCrashed = false ∧
        HeadCompletion.step sch reading (.completed postRead) = some accepted ∧
        accepted.phase = .accepted 0 (postRead.headText.getD []) [] :=
    ⟨_, _, rfl, rfl, rfl, rfl, rfl⟩
  refine ⟨reading, accepted, parse sch accepted 0 (postRead.headText.getD []) [], hrun, hawaits,
    hlive, hstep, by rw [awaitsBody, hphase], by rw [hphase]; rfl, ?_, ?_⟩
  · simp [HeadCompletion.step, IdleTimeout.step, move, proceed, hphase, Phase.isCrashed]
  · have hmissing : sizeSub 1 0 > 0 := by decide
    simp [parse, hparse, hchunked, hlength, startBody, hheaders, hread, hmissing, awaitsBody]

section
variable {sch : Scheduler} {threads : Nat} {s t : Server}

theorem blocked_setSession {j : Nat} {session session' : Session}
    (hj : s.sessions[j]? = some session) (hawaits : awaitsBody session = false) :
    blocked (setSession s j session') = blocked s + [session'].countP awaitsBody := by
  have hcount := countP_set_add awaitsBody hj session'
  have hnone : [session].countP awaitsBody = 0 := by simp [hawaits]
  simp only [blocked, setSession]
  omega

theorem isCrashed_of_awaitsBody {session : Session} (h : awaitsBody session = true) :
    session.phase.isCrashed = false := by
  unfold awaitsBody at h
  split at h
  · next hp => rw [hp]; rfl
  · cases h

/-- One connection more has one thread more. -/
theorem run_withheld (sch : Scheduler) (hlive : s.crashed = false) (hpos : 0 < s.accepting)
    (hfree : blocked s < threads) : ∃ t, run (step sch threads) s
      (withheld s.handlers.length s.sessions.length) = some t ∧ t.crashed = false ∧
        0 < t.accepting ∧ blocked t = blocked s + 1 := by
  obtain ⟨reading, accepted, waiting, hread, hawaits, hrlive, haccept, haccepted, halive, hwait,
    hwaits⟩ := run_postRead sch
  -- the session is there, and its read is started
  obtain ⟨s', hs', hrest⟩ := run_cons.mp (run_connection sch hlive hpos)
  let opened : Server := { s with sessions := s.sessions ++ [IdleTimeout.initial true] }
  have hopened : run (step sch threads) s (connection s.handlers.length) = some opened := by
    refine run_cons.mpr ⟨s', (step_eq fun _ => hfree).trans hs', ?_⟩
    rw [run_eq (fun a ha => by rw [List.eq_of_mem_replicate ha]; rfl)]
    exact hrest
  have hlast : opened.sessions[s.sessions.length]? = some (IdleTimeout.initial true) :=
    List.getElem?_concat_length
  have hsame : blocked opened = blocked s := by simp [opened, blocked, awaitsBody, IdleTimeout.initial]
  have hstarted : run (step sch threads) opened [.session s.sessions.length (.other .proceed),
      .session s.sessions.length (.other .proceed)] =
        some (setSession opened s.sessions.length reading) :=
    (run_eq (by simp [begins])).trans (run_session (s := opened) hlive hlast rfl hread)
  -- the head comes in, and its handler waits for the body
  have hlt : s.sessions.length < opened.sessions.length := by simp [opened]
  let atHead : Server := setSession opened s.sessions.length reading
  have hatHead : blocked atHead = blocked s := by
    rw [blocked_setSession hlast rfl, hsame, List.countP_singleton, hawaits]
    rfl
  have hreading : atHead.sessions[s.sessions.length]? = some reading := List.getElem?_set_self hlt
  have hhead : step sch threads atHead (.session s.sessions.length (.completed postRead)) =
      some (setSession atHead s.sessions.length accepted) :=
    (step_eq fun _ => hatHead ▸ hfree).trans (step_session hrlive hreading haccept)
  let behind : Server := setSession atHead s.sessions.length accepted
  have hbehind : blocked behind = blocked s := by
    rw [blocked_setSession hreading hawaits, hatHead, List.countP_singleton, haccepted]
    rfl
  have hparsing : behind.sessions[s.sessions.length]? = some accepted :=
    List.getElem?_set_self (by simpa [atHead, setSession] using hlt)
  have hbody : step sch threads behind (.session s.sessions.length (.other .proceed)) =
      some (setSession behind s.sessions.length waiting) :=
    (step_eq fun h => by cases h).trans (step_session halive hparsing hwait)
  refine ⟨setSession behind s.sessions.length waiting, run_append.mpr ⟨opened, hopened,
    run_append.mpr ⟨atHead, hstarted, run_cons.mpr ⟨behind, hhead, run_cons.mpr ⟨_, hbody, rfl⟩⟩⟩⟩,
    isCrashed_of_awaitsBody hwaits, hpos, ?_⟩
  rw [blocked_setSession hparsing haccepted, hbehind, List.countP_singleton, hwaits]
  rfl

/-- As many connections as there are threads left have them all. -/
theorem exists_withheld (sch : Scheduler) (hlive : s.crashed = false) (hpos : 0 < s.accepting) :
    ∃ more t, run (step sch threads) s more = some t ∧ t.crashed = false ∧ threads ≤ blocked t ∧
      more.countP Action.isConnection = threads - blocked s := by
  induction hleft : threads - blocked s generalizing s with
  | zero => exact ⟨[], s, rfl, hlive, Nat.sub_eq_zero_iff_le.mp hleft, rfl⟩
  | succ left ih =>
    obtain ⟨t, ht, htlive, htpos, hblocked⟩ := run_withheld sch hlive hpos
      (show blocked s < threads by omega)
    obtain ⟨more, u, hu, hulive, hall, hcount⟩ := ih htlive htpos (by omega)
    refine ⟨_, u, run_append.mpr ⟨t, ht, hu⟩, hulive, hall, ?_⟩
    have hone : (withheld s.handlers.length s.sessions.length).countP Action.isConnection = 1 := rfl
    rw [List.countP_append, hone, hcount, Nat.add_comm]

end

end RoutineHttp.IoThreads
