import RoutineHttp.SessionSteps
import RoutineHttp.Segmentation

/-! The bytes a client receives against the texts of the responses, over whole runs of a
session: short writes, writes on a closed socket and aborted writes are the ways to lose some. -/
namespace RoutineHttp.ResponseStream
open SessionSteps Lib

/-- The action loses no part of a response: the socket is open when `send_response` looks
and when the write starts, a write takes its whole buffer, a close finds no write to abort. -/
def Kept (sch : Scheduler) (s : Session) (a : Action) : Prop :=
  ∀ w, writeStep sch s a = some w → s.writes.Intact w

theorem whole_of_kept {sch : Scheduler} (s : Session) (a : Action) (t : Session)
    (hs : s.writes.Whole) (hkept : Kept sch s a) (h : step sch s a = some t) : t.writes.Whole := by
  have hwrites := step_writes h
  cases hw : writeStep sch s a with
  | none =>
    rw [hw] at hwrites
    rw [show t.writes = s.writes from hwrites]
    exact hs
  | some w =>
    rw [hw] at hwrites
    exact WriteQueue.whole_step hs (hkept w hw) hwrites

theorem short_of_not_kept {sch : Scheduler} (s : Session) (a : Action) (t : Session)
    (hs : s.writes.Whole) (hkept : ¬ Kept sch s a) (h : step sch s a = some t) :
    t.writes.Short := by
  have hwrites := step_writes h
  obtain ⟨w, hkept⟩ := not_forall.mp hkept
  obtain ⟨hw, hintact⟩ := Classical.not_imp.mp hkept
  rw [hw] at hwrites
  exact (WriteQueue.short_step hwrites).2 hs hintact

theorem short_stays {sch : Scheduler} (s : Session) (a : Action) (t : Session)
    (hs : s.writes.Short) (h : step sch s a = some t) : t.writes.Short := by
  have hwrites := step_writes h
  cases hw : writeStep sch s a with
  | none =>
    rw [hw] at hwrites
    rw [show t.writes = s.writes from hwrites]
    exact hs
  | some w =>
    rw [hw] at hwrites
    exact (WriteQueue.short_step hwrites).1 hs

/-- Once no write is outstanding, the client has received the texts of all responses, whole
and in order, exactly when no action of the run has lost a part of one. -/
theorem responses_complete_iff {sch : Scheduler} {actions : List Action} {t : Session}
    (hrun : run (step sch) {} actions = some t) (hdone : t.writes.outstanding = []) :
    t.writes.sent = t.writes.passed.flatten ↔ Along (step sch) (Kept sch) {} actions := by
  have hwhole : t.writes.Whole ↔ t.writes.sent = t.writes.passed.flatten := by
    simp [WriteQueue.Whole, WriteQueue.waiting, hdone]
  have hstart : WriteQueue.Whole ({} : Session).writes := rfl
  rw [← hwhole]
  exact run_iff_along whole_of_kept short_of_not_kept short_stays
    (fun _ => WriteQueue.not_whole_of_short) hstart hrun

def someDay : Tm := Segmentation.noRouter.now

def plainRequest : Request := { method := .get, path := "a".toList, version := .http11 }

theorem exists_text : ∃ text,
    responseText Segmentation.noRouter plainRequest someDay = some text := ⟨_, rfl⟩

def queuedSession : Session := { phase := .queued plainRequest, armed := false }

def sendingSession (text : Str) : Session :=
  { phase := .sending plainRequest text, armed := false }

def writingSession (text : Str) : Session :=
  { phase := .responded plainRequest, writes := { passed := [text], outstanding := [(0, text)] } }

def writtenSession (text : Str) (count : Nat) : Session :=
  { phase := .responded plainRequest, writes := { passed := [text], sent := text.take count } }

/-- One request, its response and one write that takes a number of bytes. -/
def oneWrite (count : Nat) : List Action :=
  [.handed plainRequest, .sendResponse someDay, .issue, .transmit count]

theorem step_send {text : Str}
    (htext : responseText Segmentation.noRouter plainRequest someDay = some text) :
    step Segmentation.noRouter queuedSession (.sendResponse someDay) =
      some (sendingSession text) := by
  simp [step, queuedSession, sendStep, htext, sendingSession]

theorem step_transmit_first {text : Str} {count : Nat} (hpos : 0 < count)
    (hle : count ≤ text.length) : step Segmentation.noRouter (writingSession text)
      (.transmit count) = some (writtenSession text count) := by
  simp [step, writingSession, Phase.isCrashed, WriteQueue.step, hpos, hle, writtenSession]

theorem run_oneWrite {text : Str} {count : Nat}
    (htext : responseText Segmentation.noRouter plainRequest someDay = some text)
    (hpos : 0 < count) (hle : count ≤ text.length) :
    run (step Segmentation.noRouter) {} (oneWrite count) = some (writtenSession text count) :=
  run_cons.mpr ⟨queuedSession, rfl, run_cons.mpr ⟨_, step_send htext, run_cons.mpr
    ⟨writingSession text, rfl, run_cons.mpr ⟨_, step_transmit_first hpos hle, rfl⟩⟩⟩⟩

/-- A write that takes one byte of a response loses the others. -/
theorem short_write_loses_rest : ∃ t, run (step Segmentation.noRouter) {} (oneWrite 1) = some t ∧
    t.writes.outstanding = [] ∧ t.writes.sent ≠ t.writes.passed.flatten := by
  obtain ⟨text, htext⟩ := exists_text
  have hlen := responseText_length htext
  refine ⟨_, run_oneWrite htext (by decide) (by omega), rfl, fun h => ?_⟩
  have hlength := congrArg List.length h
  simp only [writtenSession, List.length_take, List.flatten_singleton] at hlength
  omega

theorem responses_complete_iff_oneWrite : ∃ count t,
    run (step Segmentation.noRouter) {} (oneWrite count) = some t ∧ t.writes.passed ≠ [] ∧
      t.writes.sent = t.writes.passed.flatten := by
  obtain ⟨text, htext⟩ := exists_text
  have hlen := responseText_length htext
  have hrun := run_oneWrite htext (by omega) (le_refl text.length)
  refine ⟨_, _, hrun, List.cons_ne_nil _ _, (responses_complete_iff hrun rfl).mpr ?_⟩
  refine ⟨fun w hw => (by cases hw), fun s hs => ?_⟩
  obtain rfl : queuedSession = s := Option.some.inj hs
  refine ⟨fun w hw => (by cases hw), fun s hs => ?_⟩
  obtain rfl : sendingSession text = s := Option.some.inj ((step_send htext).symm.trans hs)
  refine ⟨fun w hw => (by cases hw; trivial), fun s hs => ?_⟩
  obtain rfl : writingSession text = s := Option.some.inj hs
  refine ⟨fun w hw => ?_, fun s hs => trivial⟩
  cases hw
  rintro n buffer rest heq
  cases heq
  rfl

end RoutineHttp.ResponseStream
