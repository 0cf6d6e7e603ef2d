import RoutineHttp.IoThreads

/-! The timer as a watch over silent clients. While a session waits for bytes on an open socket
something of the timer is always on its way, and whatever order it takes, it closes the
socket. -/
namespace RoutineHttp.TimeoutClose
open HttpSession BodyLength IdleTimeout Lib
open IoThreads (closeWeight closeWeight_pos closeWeight_next sum_eraseIdx sum_set)
open SessionSteps (CloseStage)

/-- The client is silent: only the timer and its handlers move. -/
def OfTimer : Action → Prop
  | .arm _ | .expire | .timeout _ | .closer _ => True
  | _ => False

/-- The chain of calls waits for bytes. -/
def Waits : Phase → Prop
  | .reading | .readingBody _ _ => True
  | _ => False

/-- The timer is about to be armed, is armed, has expired, or a handler of it closes. -/
def Watched (s : Session) : Prop :=
  s.arming ≠ [] ∨ s.pending ≠ none ∨ s.expired ≠ [] ∨ s.closers ≠ []

/-- A session that waits on an open socket is watched. -/
def Guarded (s : Session) : Prop := Waits s.phase → s.isOpen = true → Watched s

/-- A bound on the steps of the timer and its handlers. -/
def timerWeight (s : Session) : Nat :=
  7 * s.arming.length + 6 * s.pending.toList.length + 5 * s.expired.length +
    (s.closers.map fun closer => closeWeight closer.2).sum

variable {sch : Scheduler} {s t : Session}

theorem not_waits_bodyWritten (sch : Scheduler) (request : Request) (body : Str) :
    ¬ Waits (bodyWritten sch request body) := by
  unfold bodyWritten
  cases request.body with
  | none => exact id
  | some storage => exact id

/-- A body that has to be waited for is read under a fresh wait. -/
theorem guarded_startBody (request : Request) (buffer : Str) :
    Guarded (startBody sch s request buffer) := by
  unfold startBody
  cases contentLength request.headers with
  | error ended => exact fun hwaits _ => hwaits.elim
  | ok length =>
    dsimp only
    split
    · exact fun _ _ => Or.inr (Or.inl (Option.some_ne_none _))
    · exact fun hwaits _ => absurd hwaits (not_waits_bodyWritten sch request buffer)

theorem guarded_parse (ec : ErrorCode) (str buffer : Str) : Guarded (parse sch s ec str buffer) := by
  unfold parse
  split
  · exact fun hwaits _ => hwaits.elim
  · cases Request.ofRaw str with
    | error fault => exact fun hwaits _ => hwaits.elim
    | ok object =>
      dsimp only
      split
      · exact fun hwaits _ => hwaits.elim
      · split
        · exact guarded_startBody _ buffer
        · exact fun hwaits _ => hwaits.elim

/-- The check of a handler's error leaves no read behind. -/
theorem guarded_checkErrors {ec : ErrorCode} {failed fine : Phase} (hfailed : ¬ Waits failed)
    (hfine : ¬ Waits fine) : Guarded (checkErrors s ec failed fine) := by
  intro hwaits
  unfold checkErrors at hwaits
  dsimp only at hwaits
  split at hwaits
  · exact hwaits.elim
  · split at hwaits
    · exact absurd hwaits hfailed
    · exact absurd hwaits hfine

/-- A close that is done leaves the socket closed. -/
theorem closed_of_last {isOpen isOpen' : Bool} {stage : CloseStage}
    (h : closeOperation isOpen stage = some (isOpen', none)) : isOpen' = false := by
  cases stage <;> cases isOpen <;> simp_all [closeOperation]

theorem guarded_closeStep (stage : CloseStage) (next : Phase) :
    Guarded (closeStep s stage next) := by
  unfold closeStep
  cases hclose : closeOperation s.isOpen stage with
  | none => exact fun hwaits _ => hwaits.elim
  | some result =>
    obtain ⟨isOpen, _ | stage'⟩ := result
    · have hclosed := closed_of_last hclose
      exact fun _ hopen => absurd (hclosed.symm.trans hopen) (by decide)
    · exact fun hwaits _ => hwaits.elim

theorem guarded_closerStep (i : Nat) (wait : Wait) (stage : CloseStage)
    (hi : s.closers[i]? = some (wait, stage)) : Guarded (closerStep s i wait stage) := by
  unfold closerStep
  cases hclose : closeOperation s.isOpen stage with
  | none => exact fun hwaits _ => hwaits.elim
  | some result =>
    obtain ⟨isOpen, _ | stage'⟩ := result
    · have hclosed := closed_of_last hclose
      exact fun _ hopen => absurd (hclosed.symm.trans hopen) (by decide)
    · refine fun _ _ => Or.inr (Or.inr (Or.inr fun hnil => ?_))
      have hlt := (List.getElem?_eq_some_iff.mp hi).1
      have hlength := congrArg List.length hnil
      rw [List.length_set, List.length_nil] at hlength
      omega

theorem guarded_proceed (h : proceed sch s s.phase = some t) : Guarded t := by
  cases hp : s.phase with
  | starting =>
    rw [hp] at h
    cases h
    exact fun hwaits _ => hwaits.elim
  | opening =>
    rw [hp] at h
    cases h
    unfold startRead
    split
    · exact fun _ _ => Or.inl (List.append_ne_nil_of_right_ne_nil _ (List.cons_ne_nil _ _))
    · exact fun hwaits _ => hwaits.elim
  | accepted ec str buffer =>
    rw [hp] at h
    cases h
    exact guarded_parse ec str buffer
  | handing ec request =>
    rw [hp] at h
    cases h
    refine guarded_checkErrors ?_ id
    split <;> exact id
  | sending request =>
    rw [hp] at h
    cases h
    exact fun hwaits _ => hwaits.elim
  | responded request =>
    rw [hp] at h
    cases h
    intro hwaits
    dsimp only at hwaits
    split at hwaits <;> exact hwaits.elim
  | closing stage next =>
    rw [hp] at h
    cases h
    exact guarded_closeStep stage next
  | reading => rw [hp] at h; cases h
  | readingBody request buffer => rw [hp] at h; cases h
  | queued request => rw [hp] at h; cases h
  | dropped => rw [hp] at h; cases h
  | finished => rw [hp] at h; cases h
  | crashed => rw [hp] at h; cases h

theorem guarded_step {a : Action} (h : step sch s a = some t) : Guarded t := by
  have hcases := step_cases h
  cases a with
  | proceed => exact guarded_proceed hcases
  | headRead ec str buffer =>
    obtain ⟨-, rfl⟩ := hcases
    exact guarded_checkErrors id id
  | bodyRead ec read =>
    obtain ⟨request, buffer, -, rfl⟩ := hcases
    exact guarded_checkErrors id (not_waits_bodyWritten sch request _)
  | sendResponse now =>
    obtain ⟨request, -, rfl⟩ := hcases
    intro hwaits
    unfold responsePhase at hwaits
    cases request with
    | none => exact hwaits.elim
    | some request =>
      dsimp only at hwaits
      split at hwaits
      · split at hwaits <;> exact hwaits.elim
      · exact hwaits.elim
  | arm i =>
    obtain ⟨round, -, rfl⟩ := hcases
    exact fun _ _ => Or.inr (Or.inl (Option.some_ne_none _))
  | expire =>
    obtain ⟨wait, -, rfl⟩ := hcases
    exact fun _ _ => Or.inr (Or.inr (Or.inl
      (List.append_ne_nil_of_right_ne_nil _ (List.cons_ne_nil _ _))))
  | timeout i =>
    obtain ⟨wait, -, rfl⟩ := hcases
    exact fun _ _ => Or.inr (Or.inr (Or.inr
      (List.append_ne_nil_of_right_ne_nil _ (List.cons_ne_nil _ _))))
  | closer i =>
    obtain ⟨wait, stage, hi, rfl⟩ := hcases
    exact guarded_closerStep i wait stage hi

/-- A close has less to do behind a step, or throws. -/
theorem closerStep_cases {i : Nat} {wait : Wait} {stage : CloseStage}
    (hi : s.closers[i]? = some (wait, stage)) :
    (timerWeight (closerStep s i wait stage) < timerWeight s ∧
        (closerStep s i wait stage).phase = s.phase) ∨
      ((closerStep s i wait stage).phase = .crashed ∧ 0 < timerWeight s) := by
  have hpos := closeWeight_pos stage
  have herase := sum_eraseIdx (fun closer => closeWeight closer.2) hi
  unfold closerStep
  cases hclose : closeOperation s.isOpen stage with
  | none =>
    refine Or.inr ⟨rfl, ?_⟩
    simp only [timerWeight] at herase ⊢
    omega
  | some result =>
    obtain ⟨isOpen, _ | stage'⟩ := result
    · refine Or.inl ⟨?_, rfl⟩
      simp only [timerWeight] at herase ⊢
      omega
    · have hless := closeWeight_next hclose
      have hset := sum_set (fun closer => closeWeight closer.2) hi (wait, stage')
      refine Or.inl ⟨?_, rfl⟩
      simp only [timerWeight] at hset ⊢
      omega

/-- The timer leaves the chain where it is or ends the process. -/
theorem timer_step {a : Action} (ha : OfTimer a) (h : step sch s a = some t) :
    (timerWeight t < timerWeight s ∧ t.phase = s.phase) ∨
      (t.phase = .crashed ∧ 0 < timerWeight s) := by
  have hcases := step_cases h
  have hnone : (none : Option Wait).toList.length = 0 := rfl
  have hone : ∀ wait : Wait, (some wait).toList.length = 1 := fun wait => rfl
  cases a with
  | arm i =>
    obtain ⟨round, hi, rfl⟩ := hcases
    obtain ⟨hlt, -⟩ := List.getElem?_eq_some_iff.mp hi
    refine Or.inl ⟨?_, rfl⟩
    simp only [timerWeight, runTimeoutTimer, hone, List.length_eraseIdx_of_lt hlt]
    omega
  | expire =>
    obtain ⟨wait, hpending, rfl⟩ := hcases
    refine Or.inl ⟨?_, rfl⟩
    simp only [timerWeight, cancelTimer, hpending, hnone, hone, List.length_append,
      List.length_singleton]
    omega
  | timeout i =>
    obtain ⟨wait, hi, rfl⟩ := hcases
    obtain ⟨hlt, -⟩ := List.getElem?_eq_some_iff.mp hi
    refine Or.inl ⟨?_, rfl⟩
    simp only [timerWeight, List.length_eraseIdx_of_lt hlt, List.map_append, List.map_singleton,
      List.sum_append, List.sum_singleton, closeWeight]
    omega
  | closer i =>
    obtain ⟨wait, stage, hi, rfl⟩ := hcases
    exact closerStep_cases hi
  | proceed => exact ha.elim
  | headRead ec str buffer => exact ha.elim
  | bodyRead ec read => exact ha.elim
  | sendResponse now => exact ha.elim

/-- On an open socket a watched session's timer can take a step that does not throw. -/
theorem exists_timer_step (hopen : s.isOpen = true) (hlive : s.phase.isCrashed = false)
    (hw : Watched s) : ∃ a t, OfTimer a ∧ step sch s a = some t ∧ t.phase = s.phase := by
  have hstep : ∀ a, step sch s a = move sch s a := fun a => by
    rw [step, if_neg (by rw [hlive]; exact Bool.false_ne_true)]
  obtain harming | hpending | hexpired | hclosers := hw
  · obtain ⟨round, rest, harming⟩ := List.exists_cons_of_ne_nil harming
    refine ⟨.arm 0, { runTimeoutTimer s ⟨.head, round⟩ with arming := s.arming.eraseIdx 0 },
      trivial, ?_, rfl⟩
    simp [hstep, move, harming]
  · obtain ⟨wait, hpending⟩ := Option.ne_none_iff_exists'.mp hpending
    refine ⟨.expire, { cancelTimer s with expired := s.expired ++ [wait] }, trivial, ?_, rfl⟩
    simp [hstep, move, hpending]
  · obtain ⟨wait, rest, hexpired⟩ := List.exists_cons_of_ne_nil hexpired
    refine ⟨.timeout 0, { s with
      expired := s.expired.eraseIdx 0, closers := s.closers ++ [(wait, .check)] }, trivial, ?_, rfl⟩
    simp [hstep, move, hexpired]
  · obtain ⟨⟨wait, stage⟩, rest, hclosers⟩ := List.exists_cons_of_ne_nil hclosers
    refine ⟨.closer 0, closerStep s 0 wait stage, trivial, ?_, ?_⟩
    · simp [hstep, move, hclosers]
    · unfold closerStep
      rw [hopen]
      cases stage <;> rfl

/-- Runs of the timer alone are bounded and stay where the chain is. -/
theorem timer_run {silence : List Action} (hof : ∀ a ∈ silence, OfTimer a)
    (hrun : run (step sch) s silence = some t) :
    (t.phase = s.phase ∧ silence.length + timerWeight t ≤ timerWeight s) ∨
      (t.phase = .crashed ∧ silence.length ≤ timerWeight s) := by
  induction silence generalizing s with
  | nil =>
    cases hrun
    exact Or.inl ⟨rfl, by simp⟩
  | cons a silence ih =>
    obtain ⟨ha, hof⟩ := List.forall_mem_cons.mp hof
    obtain ⟨s', hs', hrest⟩ := run_cons.mp hrun
    obtain ⟨hless, hphase⟩ | ⟨hcrashed, hpos⟩ := timer_step ha hs'
    · rw [List.length_cons]
      obtain ⟨hsame, hle⟩ | ⟨hcrashed, hle⟩ := ih hof hrest
      · exact Or.inl ⟨hsame.trans hphase, by omega⟩
      · exact Or.inr ⟨hcrashed, by omega⟩
    · cases silence with
      | nil =>
        cases hrest
        exact Or.inr ⟨hcrashed, hpos⟩
      | cons b silence =>
        obtain ⟨s'', hs'', -⟩ := run_cons.mp hrest
        simp [step, hcrashed, Phase.isCrashed] at hs''

theorem guarded_run {isOpen : Bool} {actions : List Action}
    (hrun : run (step sch) (initial isOpen) actions = some s) : Guarded s := by
  have hstart : Guarded (initial isOpen) := fun hwaits _ => hwaits.elim
  exact run_invariant (fun _ _ _ _ h => guarded_step h) hstart hrun

end RoutineHttp.TimeoutClose
