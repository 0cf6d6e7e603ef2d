import RoutineHttp.IdleTimeout

/-! Which completions of the head read are parsed. The handler asks `is_errors`, for which a
cancelled read is no error as long as the socket is open, and `close` cancels before it closes. -/
namespace RoutineHttp.HeadCompletion
open Lib BodyLength IdleTimeout
open SessionSteps (CloseStage)

/-- `std::string::max_size`. -/
def maxSize : Nat := sizeLimit / 2 - 1

/-- The value of the error a cancelled operation completes with. -/
def operationAborted : ErrorCode := 125

/-- What `async_read_until` completes with, and the buffer: a read that fails reports no bytes,
one that succeeds counts the bytes up to the empty line. -/
structure Completion where
  ec : ErrorCode
  bytes : Nat
  data : Str
  fits : data.length ≤ maxSize
  failed : ec ≠ 0 → bytes = 0
  found : ec = 0 → ∃ head, head ++ crlf ++ crlf <+: data ∧ bytes = (head ++ crlf ++ crlf).length

namespace Completion

/-- The text of the head: a string cannot be made longer than `max_size`. -/
def headText (c : Completion) : Option Str :=
  if sizeSub c.bytes 2 ≤ maxSize then some (c.data.take (sizeSub c.bytes 2)) else none

def action (c : Completion) : Action :=
  .headRead c.ec (c.headText.getD []) (c.data.drop c.bytes)

theorem four_le_bytes (c : Completion) (h : c.ec = 0) : 4 ≤ c.bytes := by
  obtain ⟨head, -, hbytes⟩ := c.found h
  have hline : crlf.length = 2 := rfl
  simp only [List.length_append, hline] at hbytes
  omega

/-- Two less than the bytes of a failed read is no size for a string. -/
theorem headText_eq_none_iff (c : Completion) : c.headText = none ↔ c.ec ≠ 0 := by
  have hlimit : maxSize = 9223372036854775807 := rfl
  unfold headText
  constructor
  · intro h hec
    obtain ⟨head, hprefix, hbytes⟩ := c.found hec
    have hfour := c.four_le_bytes hec
    have hle : c.bytes ≤ c.data.length := hbytes ▸ hprefix.length_le
    have hfits := c.fits
    rw [if_pos (by rw [sizeSub_of_le (by omega)]; omega)] at h
    cases h
  · intro hec
    have hwrap : sizeSub 0 2 = 18446744073709551614 := rfl
    rw [c.failed hec, hwrap, if_neg (by omega)]

end Completion

/-- A completion of the head read, or any other step of the session and the calls of `close`. -/
inductive Event where
  | completed (c : Completion)
  | other (a : Action)

def step (sch : Scheduler) (s : Session) : Event → Option Session
  | .completed c => IdleTimeout.step sch s c.action
  | .other a => match a with
    | .headRead _ _ _ => none
    | a => IdleTimeout.step sch s a

/-- The head's handler is past `is_errors`: what follows is the size of the head. -/
def GoesOn (s : Session) : Prop := ∃ ec str buffer, s.phase = .accepted ec str buffer

/-- A read is parsed if it succeeded. -/
def ParsesSuccess (sch : Scheduler) (s : Session) (e : Event) : Prop :=
  ∀ c t, e = .completed c → step sch s e = some t → GoesOn t → c.ec = 0 ∧ 4 ≤ c.bytes

/-- The task given to the CPU pool has a request. -/
def HandsRequest (sch : Scheduler) (s : Session) (e : Event) : Prop :=
  ∀ t, step sch s e = some t → t.phase ≠ .queued none

/-- The handler of a cancelled read finds the socket closed. -/
def ClosedWhenCancelled (s : Session) (e : Event) : Prop :=
  ∀ c, e = .completed c → c.ec = operationAborted → s.isOpen = false

/-- A callback without a request gets an error, or the socket is closed. -/
def Refused (isOpen : Bool) : Phase → Prop
  | .handing ec none => isErrors ec isOpen = true
  | .queued none => False
  | .closing _ next => Refused isOpen next
  | _ => True

theorem isErrors_eq_false_iff {ec : ErrorCode} {isOpen : Bool} :
    isErrors ec isOpen = false ↔ (ec = 0 ∨ ec = operationAborted) ∧ isOpen = true := by
  by_cases hec : ec = 0 <;> simp [isErrors, ignoringErrorCodes, operationAborted, hec]

theorem isErrors_of_open {ec : ErrorCode} (h : isErrors ec true = true) (isOpen : Bool) :
    isErrors ec isOpen = true := by
  cases isOpen with
  | true => exact h
  | false => simp [isErrors]

/-- Nothing that was refused is accepted once the socket is closed. -/
theorem refused_closed {phase : Phase} {isOpen : Bool} (h : Refused isOpen phase) :
    Refused false phase := by
  induction phase with
  | handing ec request =>
    cases request with
    | none => simp [Refused, isErrors]
    | some request => trivial
  | queued request =>
    cases request with
    | none => exact h
    | some request => trivial
  | closing stage next ih => exact ih h
  | _ => trivial

theorem refused_closeOperation {phase : Phase} {isOpen isOpen' : Bool} {stage : CloseStage}
    {next : Option CloseStage} (h : Refused isOpen phase)
    (hclose : closeOperation isOpen stage = some (isOpen', next)) : Refused isOpen' phase := by
  cases stage with
  | close =>
    cases hclose
    exact refused_closed h
  | cancel =>
    cases isOpen with
    | true =>
      cases hclose
      exact h
    | false => cases hclose
  | _ =>
    cases hclose
    exact h

theorem refused_checkErrors {s : Session} {ec : ErrorCode} {failed fine : Phase}
    (hfailed : isErrors ec s.isOpen = true → Refused s.isOpen failed)
    (hfine : isErrors ec s.isOpen = false → Refused s.isOpen fine) :
    Refused (checkErrors s ec failed fine).isOpen (checkErrors s ec failed fine).phase := by
  unfold checkErrors cancelTimer
  dsimp only
  split
  · next herror => exact hfailed (isErrors_of_open herror s.isOpen)
  · split
    · next herror => exact hfailed herror
    · next herror => exact hfine (Bool.eq_false_iff.mpr herror)

/-- A request that is written into has not got lost. -/
theorem refused_bodyWritten (sch : Scheduler) (isOpen : Bool) (request : Request)
    (body : Str) : Refused isOpen (bodyWritten sch request body) := by
  unfold bodyWritten
  split <;> trivial

theorem refused_startBody (sch : Scheduler) (isOpen : Bool) (s : Session) (request : Request)
    (buffer : Str) : Refused isOpen (startBody sch s request buffer).phase := by
  unfold startBody
  split
  · trivial
  · split
    · trivial
    · exact refused_bodyWritten sch isOpen request buffer

theorem refused_parse (sch : Scheduler) (isOpen : Bool) (s : Session) (ec : ErrorCode)
    (str buffer : Str) : Refused isOpen (parse sch s ec str buffer).phase := by
  unfold parse
  split
  · trivial
  · split
    · trivial
    · split
      · trivial
      · split
        · exact refused_startBody sch isOpen s _ buffer
        · trivial

theorem refused_closeStep {s : Session} {stage : CloseStage} {next : Phase}
    (h : Refused s.isOpen next) :
    Refused (closeStep s stage next).isOpen (closeStep s stage next).phase := by
  unfold closeStep
  split
  · trivial
  · next isOpen hclose => exact refused_closeOperation h hclose
  · next isOpen stage' hclose => exact @refused_closeOperation next _ _ _ _ h hclose

theorem refused_closerStep {s : Session} {i : Nat} {wait : Wait} {stage : CloseStage}
    (h : Refused s.isOpen s.phase) :
    Refused (closerStep s i wait stage).isOpen (closerStep s i wait stage).phase := by
  unfold closerStep
  split
  · trivial
  · next isOpen hclose => exact refused_closeOperation h hclose
  · next isOpen stage' hclose => exact refused_closeOperation h hclose

/-- `is_errors` refuses once more what the head's handler refused. -/
theorem refused_proceed {sch : Scheduler} {s t : Session} {phase : Phase}
    (hphase : Refused s.isOpen phase) (h : proceed sch s phase = some t) :
    Refused t.isOpen t.phase := by
  cases phase with
  | starting =>
    cases h
    trivial
  | opening =>
    cases h
    unfold startRead
    split
    · trivial
    · exact isErrors_of_open rfl s.isOpen
  | accepted ec str buffer =>
    cases h
    exact refused_parse sch _ s ec str buffer
  | handing ec request =>
    cases h
    refine refused_checkErrors (fun _ => ?_) fun hfine => ?_
    · cases request <;> trivial
    · cases request with
      | none =>
        have herror : isErrors ec s.isOpen = true := hphase
        rw [hfine] at herror
        cases herror
      | some request => trivial
  | sending request =>
    cases h
    trivial
  | responded request =>
    cases h
    dsimp only
    split <;> trivial
  | closing stage next =>
    cases h
    exact refused_closeStep hphase
  | _ => cases h

theorem refused_step {sch : Scheduler} {s t : Session} {a : Action}
    (hs : Refused s.isOpen s.phase) (h : IdleTimeout.step sch s a = some t) :
    Refused t.isOpen t.phase := by
  have hcases := step_cases h
  cases a with
  | proceed => exact refused_proceed hs hcases
  | headRead ec str buffer =>
    obtain ⟨-, rfl⟩ := hcases
    exact refused_checkErrors (fun herror => herror) fun _ => trivial
  | bodyRead ec read =>
    obtain ⟨request, buffer, -, rfl⟩ := hcases
    exact refused_checkErrors (fun _ => trivial) fun _ => refused_bodyWritten sch _ request _
  | sendResponse now =>
    obtain ⟨request, -, rfl⟩ := hcases
    unfold responsePhase
    dsimp only
    split
    · trivial
    · split
      · split <;> trivial
      · trivial
  | arm i =>
    obtain ⟨round, -, rfl⟩ := hcases
    exact hs
  | expire =>
    obtain ⟨wait, -, rfl⟩ := hcases
    exact hs
  | timeout i =>
    obtain ⟨wait, -, rfl⟩ := hcases
    exact hs
  | closer i =>
    obtain ⟨wait, stage, -, rfl⟩ := hcases
    exact refused_closerStep hs

/-- An event is an action of the session. -/
theorem step_action {sch : Scheduler} {s t : Session} {e : Event} (h : step sch s e = some t) :
    ∃ a, IdleTimeout.step sch s a = some t := by
  cases e with
  | completed c => exact ⟨c.action, h⟩
  | other a =>
    cases a with
    | headRead ec str buffer => cases h
    | _ => exact ⟨_, h⟩

theorem refused_event {sch : Scheduler} (s : Session) (e : Event) (t : Session)
    (hs : Refused s.isOpen s.phase) (h : step sch s e = some t) : Refused t.isOpen t.phase := by
  obtain ⟨a, ha⟩ := step_action h
  exact refused_step hs ha

/-- The handler goes on with what the read completed with. -/
theorem accepted_of_goesOn {sch : Scheduler} {s t : Session} {c : Completion}
    (h : step sch s (.completed c) = some t) (hgoes : GoesOn t) :
    isErrors c.ec s.isOpen = false ∧
      t.phase = .accepted c.ec (c.headText.getD []) (c.data.drop c.bytes) := by
  obtain ⟨-, rfl⟩ := step_cases (a := c.action) h
  obtain ⟨ec, str, buffer, hphase⟩ := hgoes
  unfold checkErrors at hphase ⊢
  dsimp only at hphase ⊢
  split at hphase
  · cases hphase
  · split at hphase
    · cases hphase
    · next hopen herror =>
      rw [if_neg hopen, if_neg herror]
      exact ⟨Bool.eq_false_iff.mpr herror, rfl⟩

/-- Behind `is_errors` the handler goes on for an error that is ignored and for none. -/
theorem goesOn_iff {sch : Scheduler} {s t : Session} {c : Completion}
    (h : step sch s (.completed c) = some t) : GoesOn t ↔ isErrors c.ec s.isOpen = false := by
  refine ⟨fun hgoes => (accepted_of_goesOn h hgoes).1, fun hfine => ?_⟩
  obtain ⟨hec, -⟩ := isErrors_eq_false_iff.mp hfine
  have hfine' : isErrors c.ec true = false := isErrors_eq_false_iff.mpr ⟨hec, rfl⟩
  obtain ⟨-, rfl⟩ := step_cases (a := c.action) h
  unfold GoesOn checkErrors
  dsimp only
  exact ⟨_, _, _, by rw [hfine', hfine]; rfl⟩

theorem parsesSuccess_iff {sch : Scheduler} {s t : Session} {e : Event}
    (h : step sch s e = some t) : ParsesSuccess sch s e ↔ ClosedWhenCancelled s e := by
  constructor
  · rintro hparses c rfl hcancelled
    by_contra hopen
    have hfine : isErrors c.ec s.isOpen = false :=
      isErrors_eq_false_iff.mpr ⟨Or.inr hcancelled, by simpa using hopen⟩
    have hsuccess := (hparses c t rfl h ((goesOn_iff h).mpr hfine)).1
    rw [hcancelled] at hsuccess
    cases hsuccess
  · rintro hclosed c t' rfl ht' hgoes
    obtain ⟨hec, hopen⟩ := isErrors_eq_false_iff.mp ((goesOn_iff ht').mp hgoes)
    obtain hec | hec := hec
    · exact ⟨hec, c.four_le_bytes hec⟩
    · rw [hclosed c rfl hec] at hopen
      cases hopen

theorem handsRequest_of_refused {sch : Scheduler} {s : Session} (e : Event)
    (hs : Refused s.isOpen s.phase) : HandsRequest sch s e := by
  intro t ht hqueued
  have hnext := refused_event s e t hs ht
  rw [hqueued] at hnext
  exact hnext

/-- From a call of `run_process`, with any calls of `close` under way on other threads, only
successful reads are parsed and only requests are handed over exactly when every handler of a
cancelled head read runs with the socket closed already. -/
theorem only_success_parsed_iff {sch : Scheduler} {s t : Session} (hs : s.phase = .starting)
    {events : List Event} (hrun : run (step sch) s events = some t) :
    Along (step sch) (fun s e => ParsesSuccess sch s e ∧ HandsRequest sch s e) s events ↔
      Along (step sch) ClosedWhenCancelled s events := by
  have hrefused : Refused s.isOpen s.phase := by
    rw [hs]
    trivial
  refine along_congr refused_event (fun s e s' hs' hstep => ?_) hrefused hrun
  rw [and_iff_left (handsRequest_of_refused e hs'), parsesSuccess_iff hstep]

/-- Where two less than the bytes is no size for a string, the next step of a handler that went
on ends the process. -/
theorem proceed_completed {sch : Scheduler} {s t : Session} {c : Completion}
    (h : step sch s (.completed c) = some t) (hgoes : GoesOn t) (hnone : c.headText = none) :
    ∃ t', step sch t (.other .proceed) = some t' ∧ t'.phase = .crashed := by
  have hphase := (accepted_of_goesOn h hgoes).2
  have hec := c.headText_eq_none_iff.mp hnone
  refine ⟨parse sch t c.ec (c.headText.getD []) (c.data.drop c.bytes), ?_, ?_⟩
  · simp only [step, IdleTimeout.step, move, proceed, hphase, Phase.isCrashed,
      Bool.false_eq_true, if_false]
  · rw [parse, if_pos hec]

/-- What a cancelled read completes with. -/
def cancelled : Completion where
  ec := operationAborted
  bytes := 0
  data := []
  fits := by decide
  failed := fun _ => rfl
  found := fun h => by cases h

/-- A timeout handler is between the cancellation and the close of the socket. -/
def betweenCancelAndClose : List Event :=
  [.other .proceed, .other .proceed, .other (.arm 0), .other .expire, .other (.timeout 0),
    .other (.closer 0), .other (.closer 0)]

/-- The handler runs in between, takes two from no bytes, and the exception ends the process. -/
theorem cancelled_read_parsed : ∃ s t u,
    run (step Segmentation.noRouter) (initial true) betweenCancelAndClose = some s ∧
    s.isOpen = true ∧ s.phase = .reading ∧
    step Segmentation.noRouter s (.completed cancelled) = some t ∧ GoesOn t ∧
    step Segmentation.noRouter t (.other .proceed) = some u ∧ u.phase = .crashed ∧
    ¬ Along (step Segmentation.noRouter) (fun s e => ParsesSuccess Segmentation.noRouter s e ∧
      HandsRequest Segmentation.noRouter s e) (initial true)
      (betweenCancelAndClose ++ [.completed cancelled]) := by
  obtain ⟨s, hs⟩ : ∃ s, run (step Segmentation.noRouter) (initial true) betweenCancelAndClose =
    some s := ⟨_, rfl⟩
  obtain ⟨t, ht⟩ : ∃ t, step Segmentation.noRouter s (.completed cancelled) = some t := by
    cases hs
    exact ⟨_, rfl⟩
  have hopen : s.isOpen = true := by
    cases hs
    rfl
  have hreading : s.phase = .reading := by
    cases hs
    rfl
  have hgoes : GoesOn t := (goesOn_iff ht).mpr (by rw [hopen]; rfl)
  obtain ⟨u, hu, hcrashed⟩ := proceed_completed ht hgoes rfl
  refine ⟨s, t, u, hs, hopen, hreading, ht, hgoes, hu, hcrashed, fun h => ?_⟩
  obtain ⟨-, hlast, -⟩ := (along_append hs).mp h
  have hsuccess := (hlast.1 cancelled t rfl ht hgoes).1
  cases hsuccess

/-- Another thread is about to close the socket when the read is started, and does. -/
theorem only_success_parsed_iff_closed : ∃ s : Session,
    Along (step Segmentation.noRouter) (fun s e => ParsesSuccess Segmentation.noRouter s e ∧
      HandsRequest Segmentation.noRouter s e) s
      [.other .proceed, .other .proceed, .other (.closer 0), .completed cancelled] := by
  refine ⟨{ closers := [(⟨.response, 0⟩, .close)] }, (only_success_parsed_iff rfl rfl).mpr ?_⟩
  have hother : ∀ {s a}, ClosedWhenCancelled s (.other a) := fun _ hc => by cases hc
  refine ⟨hother, fun s hs => ?_⟩
  cases hs
  refine ⟨hother, fun s hs => ?_⟩
  cases hs
  refine ⟨hother, fun s hs => ?_⟩
  cases hs
  exact ⟨fun _ _ _ => rfl, fun _ _ => trivial⟩

end RoutineHttp.HeadCompletion
