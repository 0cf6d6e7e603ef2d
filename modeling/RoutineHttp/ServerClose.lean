import RoutineHttp.ResponseStream

/-! The close a client has asked for and the write of the response it follows. -/
namespace RoutineHttp.ServerClose
open HttpSession SessionSteps Lib

/-- In no run does the task of a queued request cancel, shut down or close the socket while
the write of its response is outstanding. That write has the next number. -/
def ClosesAfterWrite (sch : Scheduler) (s : Session) : Prop :=
  ∀ actions t stage, run (step sch) s actions = some t → t.phase = .closing stage →
    stage ≠ .check → ¬ t.writes.Pending s.writes.passed.length

/-- The states of a session whose task cannot come to close the socket any more, or will
not write before it does. -/
inductive Harmless (sch : Scheduler) (request : Request) (s : Session) : Prop where
  | queued (hphase : s.phase = .queued request)
      (hopen : s.isOpen = true → ∀ now, responseText sch request now = none)
  | responded (other : Request) (hphase : s.phase = .responded other) (hopen : s.isOpen = false)
  | check (hphase : s.phase = .closing .check) (hopen : s.isOpen = false)
  | finished (hphase : s.phase = .finished)
  | crashed (hphase : s.phase = .crashed)

namespace Harmless
variable {sch : Scheduler} {request : Request} {s : Session}

theorem of_queued (h : Harmless sch request s) {other : Request} (hp : s.phase = .queued other) :
    other = request ∧ (s.isOpen = true → ∀ now, responseText sch request now = none) := by
  cases h <;> simp_all

theorem not_sending (h : Harmless sch request s) (other : Request) (text : Str) :
    s.phase ≠ .sending other text := by
  cases h <;> simp_all

theorem of_responded (h : Harmless sch request s) {other : Request}
    (hp : s.phase = .responded other) : s.isOpen = false := by
  cases h <;> simp_all

theorem of_closing (h : Harmless sch request s) {stage : CloseStage}
    (hp : s.phase = .closing stage) : stage = .check ∧ s.isOpen = false := by
  cases h <;> simp_all

theorem not_reading (h : Harmless sch request s) : s.phase ≠ .reading := by
  cases h <;> simp_all

end Harmless

theorem responseText_eq_none_iff {sch : Scheduler} {request : Request} (now : Tm) :
    responseText sch request now = none ↔
      ∀ text, (respond sch request).2.2.bodyText ≠ .ok text := by
  have hok := Response.prepareResponse_ok_iff (respond sch request).2.2 now sch.headerOrder
  rw [← not_exists, ← hok, responseText]
  cases (respond sch request).2.2.prepareResponse now sch.headerOrder <;> simp

theorem closeOperation_open {s s' : Session} {stage : CloseStage} {after : Option CloseStage}
    (h : closeOperation s stage = some (s', after)) :
    s'.phase = s.phase ∧ (s'.isOpen = true → s.isOpen = true) := by
  cases ho : s.isOpen <;> cases stage <;> simp [closeOperation, abortWrites, ho] at h <;>
    obtain ⟨rfl, -⟩ := h <;> simp [ho]

theorem closerStep_open (s : Session) (i : Nat) (stage : CloseStage) :
    ((closerStep s i stage).phase = s.phase ∨ (closerStep s i stage).phase = .crashed) ∧
      ((closerStep s i stage).isOpen = true → s.isOpen = true) := by
  unfold closerStep
  cases hc : closeOperation s stage with
  | none => exact ⟨Or.inr rfl, id⟩
  | some result =>
    obtain ⟨s', after⟩ := result
    have hopen := closeOperation_open hc
    cases after <;> exact ⟨Or.inl hopen.1, hopen.2⟩

/-- Actions of other threads leave the phase alone or end the process, and open nothing. -/
theorem harmless_of_same {sch : Scheduler} {request : Request} {s t : Session}
    (h : Harmless sch request s) (hphase : t.phase = s.phase)
    (hopen : t.isOpen = true → s.isOpen = true) : Harmless sch request t := by
  have hshut : s.isOpen = false → t.isOpen = false := fun hs => by
    cases ht : t.isOpen with
    | false => rfl
    | true => rw [hopen ht] at hs; cases hs
  cases h with
  | queued hp ho => exact .queued (hphase.trans hp) fun ht => ho (hopen ht)
  | responded other hp ho => exact .responded other (hphase.trans hp) (hshut ho)
  | check hp ho => exact .check (hphase.trans hp) (hshut ho)
  | finished hp => exact .finished (hphase.trans hp)
  | crashed hp => exact .crashed (hphase.trans hp)

theorem harmless_step {sch : Scheduler} {request : Request} (s : Session) (a : Action) (t : Session)
    (h : Harmless sch request s) (hstep : step sch s a = some t) : Harmless sch request t := by
  have hcases := step_cases hstep
  cases a with
  | handed other => exact absurd hcases.1 h.not_reading
  | sendResponse now =>
    obtain ⟨other, hp, rfl⟩ := hcases
    obtain ⟨rfl, htext⟩ := h.of_queued hp
    cases hopen : s.isOpen with
    | true => exact .crashed (by simp [sendStep, hopen, htext hopen now])
    | false =>
      cases ht : responseText sch other now <;>
        exact .responded other (by simp [sendStep, hopen, ht])
          (by simp [sendStep, hopen, ht, passUnwritten])
  | issue =>
    obtain ⟨other, text, hp, -⟩ := hcases
    exact absurd hp (h.not_sending other text)
  | next =>
    obtain ⟨other, hp, rfl⟩ := hcases
    have hopen := h.of_responded hp
    cases hclose : asksClose other.headers with
    | true => exact .check (by simp [nextStep, hclose]) (by simp [nextStep, hclose, hopen])
    | false => exact .finished (by simp [nextStep, hclose, hopen])
  | closeStep =>
    obtain ⟨stage, hp, rfl⟩ := hcases
    obtain ⟨rfl, hopen⟩ := h.of_closing hp
    exact .finished (by simp [closeStep, closeOperation, hopen])
  | expire =>
    rw [hcases]
    exact harmless_of_same h rfl id
  | timeout =>
    rw [hcases]
    exact harmless_of_same h rfl id
  | closerStep i =>
    obtain ⟨stage, -, rfl⟩ := hcases
    obtain ⟨hphase | hphase, hopen⟩ := closerStep_open s i stage
    · exact harmless_of_same h hphase hopen
    · exact .crashed hphase
  | transmit count =>
    obtain ⟨-, writes, -, rfl⟩ := hcases
    exact harmless_of_same h rfl id

/-- The run in which nothing but the task moves: the write is started and the socket's
cancellation is next. -/
theorem run_to_cancel {sch : Scheduler} {s : Session} {request : Request} {now : Tm} {text : Str}
    (hs : s.phase = .queued request) (hclose : asksClose request.headers = true)
    (hopen : s.isOpen = true) (htext : responseText sch request now = some text) :
    run (step sch) s [.sendResponse now, .issue, .next, .closeStep] =
      some { issueWrite s text with phase := .closing .cancel, armed := true } := by
  have h₁ : step sch s (.sendResponse now) = some { s with phase := .sending request text } := by
    simp [step, hs, sendStep, hopen, htext]
  have h₂ : step sch { s with phase := .sending request text } .issue =
      some { issueWrite s text with phase := .responded request, armed := true } := by
    simp [step, hopen, issueWrite]
  have h₃ : step sch { issueWrite s text with phase := .responded request, armed := true } .next =
      some { issueWrite s text with phase := .closing .check, armed := true } := by
    simp [step, nextStep, hclose]
  have h₄ : step sch { issueWrite s text with phase := .closing .check, armed := true } .closeStep =
      some { issueWrite s text with phase := .closing .cancel, armed := true } := by
    simp [step, closeStep, closeOperation, issueWrite, hopen]
  exact run_cons.mpr ⟨_, h₁, run_cons.mpr ⟨_, h₂, run_cons.mpr ⟨_, h₃, run_cons.mpr ⟨_, h₄, rfl⟩⟩⟩⟩

theorem not_closes_of_text {sch : Scheduler} {s : Session} {request : Request} {now : Tm}
    {text : Str} (hs : s.phase = .queued request) (hclose : asksClose request.headers = true)
    (hopen : s.isOpen = true) (htext : responseText sch request now = some text) :
    ¬ ClosesAfterWrite sch s := by
  intro h
  refine h _ _ .cancel (run_to_cancel hs hclose hopen htext) rfl (by decide) ⟨text, ?_⟩
  simp [issueWrite]

def closeRequest : Request :=
  { method := .get, path := "a".toList, version := .http11
    headers := Headers.insert {} "connection".toList "close".toList }

def closeSession : Session := { phase := .queued closeRequest, armed := false }

end RoutineHttp.ServerClose
