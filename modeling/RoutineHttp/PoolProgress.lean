import RoutineHttp.PoolConservation
import RoutineHttp.PoolOrder

/-! No call on a thread pool is stuck. The indices its steps use are those of workers, a
worker that holds its mutex lets go of it in one step, and one that has been told to stop
returns after three at most; so some order of the steps that are left ends every call. -/
namespace RoutineHttp
open Lib
variable {τ : Type*}

/-- The indices of a push are those of a vector of this size. -/
def PushStage.InRange (size : Nat) : PushStage → Prop
  | .inline => True
  | .probe i best _ => i ≤ size ∧ best < size
  | .compare i best _ => i < size ∧ best < size
  | .record i => i < size
  | .enqueue best => best < size

/-- What holds of the indices of a call: they are those of workers, and the worker a stop
waits for has been told to stop. -/
def PoolCall.Sound (threads : List (CpuThreadWorker τ)) : PoolCall τ → Prop
  | .pushes calls => ∀ p ∈ calls, p.stage.InRange threads.length
  | .starting _ => True
  | .building i _ => i < threads.length
  | .halting i n => i ≤ n ∧ n ≤ threads.length
  | .joining i n => i < n ∧ n ≤ threads.length ∧
      ∃ w, threads[i]? = some w ∧ w.status = .stopped
  | .moving _ push => ∀ p ∈ push, p.stage.InRange threads.length

/-- How many steps a push over so many workers has left at most. -/
def PushStage.left (size : Nat) : PushStage → Nat
  | .inline => 1
  | .probe i _ _ => 3 * (size - i) + 3
  | .compare i _ _ => 3 * (size - i) + 2
  | .record i => 3 * (size - i) + 1
  | .enqueue _ => 1

def pushesLeft (size : Nat) (calls : List (Push τ)) : Nat := total (fun p => p.stage.left size) calls

/-- The task a worker still executes when it is told to stop: the one in its thread, or the one
it takes because it is past the check of the status. -/
def CpuThreadWorker.lastTask (w : CpuThreadWorker τ) : List τ :=
  match w.stage with
  | .checked => w.queue.take 1
  | .running task => [task]
  | _ => []

/-- How many steps a worker needs to return at most, once it has been told to. -/
def CpuThreadWorker.exitTurns (w : CpuThreadWorker τ) : Nat :=
  match w.stage with
  | .idle => 1
  | .checked => if w.queue.isEmpty then 2 else 3
  | .running _ => 2
  | .exited => 0

/-- What is left of a call: whether it still waits for workers to return, how many steps of
its own it has, a push to be made for each task to be moved, and how long the worker it waits
for may take. -/
def PoolCall.distance (threads : List (CpuThreadWorker τ)) : PoolCall τ → Nat × Nat × Nat
  | .pushes calls => (0, pushesLeft threads.length calls, waitFor (calls.head?.map Push.stage))
  | .starting n => (0, 2 * n + 1, 0)
  | .building _ n => (0, 2 * n + 2, 0)
  | .halting i n => (1, 2 * (n - i) + 1, 0)
  | .joining i n => (1, 2 * (n - i), turnsOf i)
  | .moving stopped push => (0, 1 + total (fun w => w.queue.length * (3 * threads.length + 4) + 1)
      stopped + pushesLeft threads.length push.toList, waitFor (push.map Push.stage))
where
  turnsOf (i : Nat) : Nat := (threads[i]?.map CpuThreadWorker.exitTurns).getD 0
  waitFor : Option PushStage → Nat
    | some (.enqueue best) => turnsOf best
    | _ => 0

namespace ThreadPool

def Sound (s : ThreadPool τ) : Prop := s.call.Sound s.threads

theorem inRange_start (threads : List (CpuThreadWorker τ)) (task : τ) :
    (Push.start threads task).stage.InRange threads.length := by
  cases threads with
  | nil => trivial
  | cons w threads => exact ⟨Nat.zero_le _, Nat.succ_pos _⟩

/-- The search goes on with indices of workers. -/
theorem inRange_search {threads : List (CpuThreadWorker τ)} {stage next : PushStage}
    (hp : stage.InRange threads.length) (h : Push.search threads stage = some next) :
    next.InRange threads.length := by
  cases stage with
  | inline => cases h
  | probe i best count =>
    rw [Push.search] at h
    split at h
    · cases h
      exact hp.2
    · next w hw =>
      obtain ⟨hlt, -⟩ := List.getElem?_eq_some_iff.mp hw
      cases h
      split
      · exact hlt
      · exact ⟨hlt, hp.2⟩
  | compare i best count =>
    obtain ⟨w, hw, rfl⟩ := Option.map_eq_some_iff.mp h
    split
    · exact hp.1
    · exact ⟨hp.1, hp.2⟩
  | record i =>
    obtain ⟨w, hw, rfl⟩ := Option.map_eq_some_iff.mp h
    exact ⟨hp, hp⟩
  | enqueue best => cases h

theorem inRange_rest {threads : List (CpuThreadWorker τ)} {p : Push τ} {r : PushResult τ}
    (hp : p.stage.InRange threads.length) (hr : p.step threads = some r) :
    ∀ rest ∈ r.rest, rest.stage.InRange r.threads.length := by
  intro rest hrest
  rw [(push_step_tasks hr).2.2]
  obtain ⟨stage, hsearch, rfl⟩ | ⟨-, rfl⟩ | ⟨best, w, -, -, -, rfl⟩ := Push.step_cases hr
  · cases hrest
    exact inRange_search hp hsearch
  · cases hrest
  · cases hrest

theorem sound_callStep {s t : ThreadPool τ} (hs : s.Sound) (h : s.callStep = some t) :
    t.Sound := by
  have hcases := callStep_cases h
  unfold Sound at hs
  rcases hc : s.call with calls | n | ⟨i, n⟩ | ⟨i, n⟩ | ⟨i, n⟩ | ⟨stopped, push⟩ <;>
    simp only [hc] at hcases <;> rw [hc] at hs
  · cases n with
    | zero =>
      subst hcases
      exact List.forall_mem_nil _
    | succ n => exact hcases.elim
  · obtain ⟨w, hw, rfl⟩ := hcases
    trivial
  · obtain ⟨-, rfl⟩ | ⟨hlt, w, hw, rfl⟩ := hcases
    · unfold erase
      split
      · exact List.forall_mem_nil _
      · intro p hp
        cases hp
    · obtain ⟨hi, -⟩ := List.getElem?_eq_some_iff.mp hw
      refine ⟨hlt, by simpa using hs.2, _, List.getElem?_set_self hi, rfl⟩
  · obtain ⟨w, hw, -, rfl⟩ := hcases
    exact ⟨hs.1, hs.2.1⟩
  · cases push with
    | none =>
      cases stopped with
      | nil =>
        subst hcases
        exact List.forall_mem_nil _
      | cons w stopped =>
        obtain ⟨-, rfl⟩ | ⟨task, queue, -, rfl⟩ := hcases
        · intro p hp
          cases hp
        · intro p hp
          cases hp
          exact inRange_start s.threads task
    | some p =>
      obtain ⟨r, hr, rfl⟩ := callStep_push hc h
      exact inRange_rest (hs p rfl) hr

theorem status_processWorker {w v : CpuThreadWorker τ} {task : Option τ}
    (h : w.processWorker = some (v, task)) : v.status = w.status := by
  unfold CpuThreadWorker.processWorker at h
  split at h
  · cases h
    rfl
  · split at h <;> cases h <;> rfl
  · cases h
    rfl
  · cases h

/-- A worker that keeps its status leaves the call in order. -/
theorem sound_set {threads : List (CpuThreadWorker τ)} (call : PoolCall τ) {i : Nat}
    {w v : CpuThreadWorker τ} (hs : call.Sound threads) (hw : threads[i]? = some w)
    (hstatus : v.status = w.status) : call.Sound (threads.set i v) := by
  cases call with
  | joining k n =>
    obtain ⟨hk, hn, x, hx, hstopped⟩ := hs
    refine ⟨hk, by simpa using hn, ?_⟩
    by_cases hik : i = k
    · subst hik
      cases hw.symm.trans hx
      obtain ⟨hlt, -⟩ := List.getElem?_eq_some_iff.mp hw
      exact ⟨v, List.getElem?_set_self hlt, hstatus.trans hstopped⟩
    · exact ⟨x, (List.getElem?_set_ne hik).trans hx, hstopped⟩
  | pushes calls => simpa [PoolCall.Sound] using hs
  | starting n => trivial
  | building k n => simpa [PoolCall.Sound] using hs
  | halting k n => simpa [PoolCall.Sound] using hs
  | moving stopped push => simpa [PoolCall.Sound] using hs

theorem sound_step (s : ThreadPool τ) (a : Action τ) (t : ThreadPool τ) (hs : s.Sound)
    (h : step s a = some t) : t.Sound := by
  have hcases := step_cases h
  cases a with
  | run n =>
    obtain ⟨-, rfl⟩ := hcases
    trivial
  | push task =>
    obtain ⟨calls, hc, rfl⟩ := hcases
    unfold Sound at hs
    rw [hc] at hs
    intro p hp
    obtain hp | hp := List.mem_append.mp hp
    · exact hs p hp
    · rw [List.mem_singleton.mp hp]
      exact inRange_start s.threads task
  | stop n =>
    obtain ⟨-, rfl⟩ := hcases
    exact ⟨Nat.zero_le _, Nat.min_le_right _ _⟩
  | spawn status =>
    obtain ⟨n, -, rfl⟩ := hcases
    simp [Sound, PoolCall.Sound]
  | pushStep j =>
    obtain ⟨calls, p, r, hc, hp, hr, rfl⟩ := hcases
    unfold Sound at hs
    rw [hc] at hs
    have hrest := inRange_rest (hs p (List.mem_of_getElem? hp)) hr
    have hlength : r.threads.length = s.threads.length := (push_step_tasks hr).2.2
    cases hn : r.rest with
    | none =>
      intro q hq
      rw [after, hlength]
      exact hs q (List.mem_of_mem_eraseIdx hq)
    | some rest =>
      intro q hq
      obtain hq | rfl := List.mem_or_eq_of_mem_set hq
      · rw [after, hlength]
        exact hs q hq
      · exact hrest q hn
  | callStep => exact sound_callStep hs hcases
  | worker i =>
    obtain ⟨w, v, task, hw, hp, rfl⟩ := hcases
    exact sound_set s.call hs hw (status_processWorker hp)

/-- A worker that holds its mutex or has been told to stop comes closer to its return with its
next step. -/
theorem exitTurns_processWorker {w : CpuThreadWorker τ} (hexited : w.hasExited = false)
    (hyields : w.holdsMutex = true ∨ w.status = .stopped) :
    ∃ v task, w.processWorker = some (v, task) ∧ v.exitTurns < w.exitTurns := by
  cases hs : w.stage with
  | idle =>
    have hstopped : w.status = .stopped := by simpa [CpuThreadWorker.holdsMutex, hs] using hyields
    exact ⟨_, _, by rw [CpuThreadWorker.processWorker, hs],
      by simp [CpuThreadWorker.exitTurns, hs, hstopped]⟩
  | checked =>
    cases hq : w.queue with
    | nil => exact ⟨_, _, by rw [CpuThreadWorker.processWorker, hs, hq],
        by simp [CpuThreadWorker.exitTurns, hs, hq]⟩
    | cons task queue => exact ⟨_, _, by rw [CpuThreadWorker.processWorker, hs, hq],
        by simp [CpuThreadWorker.exitTurns, hs, hq]⟩
  | running task => exact ⟨_, _, by rw [CpuThreadWorker.processWorker, hs],
      by simp [CpuThreadWorker.exitTurns, hs]⟩
  | exited => simp [CpuThreadWorker.hasExited, hs] at hexited

theorem search_advances {threads : List (CpuThreadWorker τ)} {stage : PushStage}
    (hp : stage.InRange threads.length) :
    stage = .inline ∨ (∃ best, stage = .enqueue best) ∨ ∃ next,
      Push.search threads stage = some next ∧ next.left threads.length < stage.left threads.length := by
  cases stage with
  | inline => exact Or.inl rfl
  | enqueue best => exact Or.inr (Or.inl ⟨best, rfl⟩)
  | probe i best count =>
    refine Or.inr (Or.inr ?_)
    cases hi : threads[i]? with
    | none => exact ⟨.enqueue best, by rw [Push.search, hi], by simp [PushStage.left]⟩
    | some w =>
      refine ⟨_, by rw [Push.search, hi], ?_⟩
      cases w.queue.isEmpty <;> simp [PushStage.left]
  | compare i best count =>
    have hlt : i < threads.length := hp.1
    refine Or.inr (Or.inr ⟨_, by rw [Push.search, List.getElem?_eq_getElem hlt]; rfl, ?_⟩)
    dsimp only
    split <;> simp only [PushStage.left] <;> omega
  | record i =>
    have hlt : i < threads.length := hp
    refine Or.inr (Or.inr ⟨_, by rw [Push.search, List.getElem?_eq_getElem hlt]; rfl, ?_⟩)
    simp only [PushStage.left]
    omega

theorem step_of_search {threads : List (CpuThreadWorker τ)} {task : τ} {stage next : PushStage}
    (h : Push.search threads stage = some next) :
    Push.step threads { task, stage } = some { threads, rest := some { task, stage := next } } := by
  cases stage <;> simp_all [Push.step, Push.search]

/-- A push can go on unless it waits for the mutex of a worker. -/
theorem push_advances {threads : List (CpuThreadWorker τ)} {p : Push τ}
    (hp : p.stage.InRange threads.length) :
    (∃ r, p.step threads = some r ∧
        pushesLeft threads.length r.rest.toList < p.stage.left threads.length) ∨
      ∃ best w, p.stage = .enqueue best ∧ threads[best]? = some w ∧ w.holdsMutex = true := by
  obtain ⟨task, stage⟩ := p
  obtain rfl | ⟨best, rfl⟩ | ⟨next, hnext, hless⟩ := search_advances hp
  · exact Or.inl ⟨_, rfl, Nat.one_pos⟩
  · have hw : threads[best]? = some threads[best] := List.getElem?_eq_getElem hp
    cases hm : threads[best].holdsMutex with
    | true => exact Or.inr ⟨best, _, rfl, hw, hm⟩
    | false => exact Or.inl ⟨{ threads := threads.set best (threads[best].enqueue task), rest := none },
        by simp [Push.step, hw, hm], Nat.one_pos⟩
  · exact Or.inl ⟨_, step_of_search hnext, by simpa [pushesLeft] using hless⟩

def distance (s : ThreadPool τ) : Nat × Nat × Nat := s.call.distance s.threads

/-- A step that starts no call leads to a state closer to the end of the calls. -/
def ComesCloser (s : ThreadPool τ) : Prop :=
  ∃ a t, ¬ a.StartsCall ∧ step s a = some t ∧ t.Sound ∧
    WellFoundedRelation.rel t.distance s.distance

theorem closer_of_phase {a a' : Nat} {x x' : Nat × Nat} (h : a' < a) :
    WellFoundedRelation.rel (a', x') (a, x) := Prod.Lex.left _ _ h

theorem closer_of_work {a b b' c c' : Nat} (h : b' < b) :
    WellFoundedRelation.rel (a, b', c') (a, b, c) := Prod.Lex.right _ (Prod.Lex.left _ _ h)

theorem closer_of_wait {a b c c' : Nat} (h : c' < c) :
    WellFoundedRelation.rel (a, b, c') (a, b, c) := Prod.Lex.right _ (Prod.Lex.right _ h)

/-- The worker a call waits for makes its next step. -/
theorem closer_of_worker {s : ThreadPool τ} (hs : s.Sound) {i : Nat} {w : CpuThreadWorker τ}
    (hw : s.threads[i]? = some w) (hexited : w.hasExited = false) (hyields : w.holdsMutex = true ∨ w.status = .stopped) {a b : Nat}
    (hdistance : ∀ threads, threads.length = s.threads.length →
      s.call.distance threads = (a, b, PoolCall.distance.turnsOf threads i)) : s.ComesCloser := by
  obtain ⟨v, task, hp, hless⟩ := exitTurns_processWorker hexited hyields
  have hstep : step s (.worker i) = some { s with
      threads := s.threads.set i v
      executed := s.executed + Multiset.ofList task.toList } := by
    simp [step, hw, hp]
  refine ⟨_, _, id, hstep, sound_step _ _ _ hs hstep, ?_⟩
  obtain ⟨hlt, -⟩ := List.getElem?_eq_some_iff.mp hw
  rw [distance, distance, hdistance _ rfl, hdistance _ (List.length_set ..)]
  refine closer_of_wait ?_
  simpa [PoolCall.distance.turnsOf, hw, List.getElem?_set_self hlt] using hless

theorem closer_of_call {s t : ThreadPool τ} (hs : s.Sound) (h : s.callStep = some t)
    (hcloser : WellFoundedRelation.rel t.distance s.distance) : s.ComesCloser :=
  ⟨.callStep, t, id, h, sound_step s .callStep t hs h, hcloser⟩

theorem hasExited_of_holdsMutex {w : CpuThreadWorker τ} (h : w.holdsMutex = true) :
    w.hasExited = false := by
  cases hs : w.stage <;> simp_all [CpuThreadWorker.holdsMutex, CpuThreadWorker.hasExited]

/-- The first of the pushes in progress. -/
theorem closer_pushes {s : ThreadPool τ} (hs : s.Sound) {p : Push τ} {calls : List (Push τ)}
    (hc : s.call = .pushes (p :: calls)) : s.ComesCloser := by
  have hall := hs
  rw [Sound, hc] at hall
  obtain ⟨r, hr, hless⟩ | ⟨best, w, hstage, hw, hmutex⟩ := push_advances (hall p (by simp))
  · have hstep : step s (.pushStep 0) = some (s.after r (.pushes (r.rest.toList ++ calls))) := by
      simp only [step, hc, List.getElem?_cons_zero, Option.bind_some, hr, Option.map_some]
      cases r.rest <;> rfl
    refine ⟨_, _, id, hstep, sound_step _ _ _ hs hstep, ?_⟩
    have hlength : r.threads.length = s.threads.length := (push_step_tasks hr).2.2
    rw [distance, distance, hc]
    refine closer_of_work ?_
    rw [after, hlength]
    cases hrest : r.rest <;> simpa [pushesLeft, hrest] using hless
  · refine closer_of_worker hs hw (hasExited_of_holdsMutex hmutex) (Or.inl hmutex) (a := 0)
      (b := pushesLeft s.threads.length (p :: calls)) fun threads hlength => ?_
    rw [hc, PoolCall.distance, hlength, List.head?_cons, Option.map_some, hstage]
    rfl

/-- A stop that moves the tasks of the workers it has stopped. -/
theorem closer_moving {s : ThreadPool τ} (hs : s.Sound) {stopped : List (CpuThreadWorker τ)}
    {push : Option (Push τ)} (hc : s.call = .moving stopped push) : s.ComesCloser := by
  have hall := hs
  rw [Sound, hc] at hall
  cases push with
  | none =>
    cases stopped with
    | nil =>
      have hstep : s.callStep = some { s with call := .pushes [] } := by simp [callStep, hc]
      refine closer_of_call hs hstep ?_
      rw [distance, distance, hc]
      exact closer_of_work (by simp [pushesLeft])
    | cons w stopped =>
      cases hq : w.queue with
      | nil =>
        have hstep : s.callStep = some { s with call := .moving stopped none } := by
          simp [callStep, hc, hq]
        refine closer_of_call hs hstep ?_
        rw [distance, distance, hc]
        exact closer_of_work (by simp [pushesLeft, hq])
      | cons task queue =>
        have hstep : s.callStep = some { s with
            call := .moving ({ w with queue } :: stopped) (some (Push.start s.threads task)) } := by
          simp [callStep, hc, hq]
        refine closer_of_call hs hstep ?_
        rw [distance, distance, hc]
        refine closer_of_work ?_
        have hstart : (Push.start s.threads task).stage.left s.threads.length ≤
            3 * s.threads.length + 3 := by
          cases s.threads <;> simp [Push.start, PushStage.left]
        simp only [pushesLeft, total_cons, hq, List.length_cons, Nat.add_mul, Nat.one_mul,
          Option.toList_some, Option.toList_none, total_nil]
        omega
  | some p =>
    obtain ⟨r, hr, hless⟩ | ⟨best, w, hstage, hw, hmutex⟩ := push_advances (hall p rfl)
    · have hstep : s.callStep = some (s.after r (.moving stopped r.rest)) := by
        cases stopped <;> simp [callStep, hc, hr]
      have hlength : r.threads.length = s.threads.length := (push_step_tasks hr).2.2
      refine closer_of_call hs hstep ?_
      rw [distance, distance, hc]
      refine closer_of_work ?_
      rw [after, hlength, Option.toList_some]
      simpa [pushesLeft] using hless
    · refine closer_of_worker hs hw (hasExited_of_holdsMutex hmutex) (Or.inl hmutex) (a := 0)
        (b := 1 + total (fun w => w.queue.length * (3 * s.threads.length + 4) + 1) stopped +
          pushesLeft s.threads.length [p]) fun threads hlength => ?_
      rw [hc, PoolCall.distance, hlength, Option.map_some, hstage]
      rfl

/-- Every state with a call in progress has a next step that comes closer to its end. -/
theorem closer_of_not_quiet {s : ThreadPool τ} (hs : s.Sound) (hquiet : ¬ s.Quiet) :
    s.ComesCloser := by
  have hall := hs
  unfold Sound at hall
  rcases hc : s.call with calls | n | ⟨i, n⟩ | ⟨i, n⟩ | ⟨i, n⟩ | ⟨stopped, push⟩ <;> rw [hc] at hall
  · cases calls with
    | nil => exact absurd hc hquiet
    | cons p calls => exact closer_pushes hs hc
  · cases n with
    | zero =>
      have hstep : s.callStep = some { s with call := .pushes [] } := by simp [callStep, hc]
      refine closer_of_call hs hstep ?_
      rw [distance, distance, hc]
      exact closer_of_work Nat.one_pos
    | succ n =>
      have hstep : step s (.spawn .working) = some { s with
          threads := s.threads ++ [{ status := .working }]
          call := .building s.threads.length n } := by
        simp [step, hc]
      refine ⟨_, _, id, hstep, sound_step _ _ _ hs hstep, ?_⟩
      rw [distance, distance, hc]
      exact closer_of_work (by omega)
  · have hstep : s.callStep = some { s with
        threads := s.threads.set i { s.threads[i] with status := .working }
        call := .starting n } := by
      simp [callStep, hc, List.getElem?_eq_getElem hall]
    refine closer_of_call hs hstep ?_
    rw [distance, distance, hc]
    exact closer_of_work (Nat.lt_succ_self _)
  · obtain hlt | hle := Nat.lt_or_ge i n
    · have hi : i < s.threads.length := hlt.trans_le hall.2
      have hstep : s.callStep = some { s with
          threads := s.threads.set i { s.threads[i] with status := .stopped }
          call := .joining i n } := by
        simp [callStep, hc, hlt, List.getElem?_eq_getElem hi]
      refine closer_of_call hs hstep ?_
      rw [distance, distance, hc]
      exact closer_of_work (Nat.lt_succ_self _)
    · have hstep : s.callStep = some (s.erase n) := by
        simp [callStep, hc, Nat.not_lt.mpr hle]
      refine closer_of_call hs hstep ?_
      rw [distance, distance, hc, erase]
      split <;> exact closer_of_phase Nat.one_pos
  · obtain ⟨hlt, -, w, hw, hstopped⟩ := hall
    cases hexited : w.hasExited with
    | true =>
      have hstep : s.callStep = some { s with call := .halting (i + 1) n } := by
        simp [callStep, hc, hw, hexited]
      refine closer_of_call hs hstep ?_
      rw [distance, distance, hc]
      exact closer_of_work (by omega)
    | false =>
      refine closer_of_worker hs hw hexited (Or.inr hstopped) (a := 1) (b := 2 * (n - i))
        fun threads hlength => ?_
      rw [hc]
      rfl
  · exact closer_moving hs hc

theorem sound_run {actions : List (Action τ)} {s : ThreadPool τ}
    (h : run step {} actions = some s) : s.Sound := by
  have hfresh : Sound ({} : ThreadPool τ) := List.forall_mem_nil _
  exact run_invariant sound_step hfresh h

/-- A worker that has been told to stop comes exactly one step closer to its return. -/
theorem lastTask_processWorker {w v : CpuThreadWorker τ} {task : Option τ}
    (hstopped : w.status = .stopped) (h : w.processWorker = some (v, task)) :
    w.exitTurns = v.exitTurns + 1 ∧ w.lastTask = task.toList ++ v.lastTask := by
  cases hs : w.stage with
  | idle =>
    simp only [CpuThreadWorker.processWorker, hs, Option.some.injEq, Prod.mk.injEq] at h
    obtain ⟨rfl, rfl⟩ := h
    simp [CpuThreadWorker.exitTurns, CpuThreadWorker.lastTask, hs, hstopped]
  | checked =>
    cases hq : w.queue with
    | nil =>
      simp only [CpuThreadWorker.processWorker, hs, hq, Option.some.injEq, Prod.mk.injEq] at h
      obtain ⟨rfl, rfl⟩ := h
      simp [CpuThreadWorker.exitTurns, CpuThreadWorker.lastTask, hs, hq]
    | cons first queue =>
      simp only [CpuThreadWorker.processWorker, hs, hq, Option.some.injEq, Prod.mk.injEq] at h
      obtain ⟨rfl, rfl⟩ := h
      simp [CpuThreadWorker.exitTurns, CpuThreadWorker.lastTask, hs, hq]
  | running first =>
    simp only [CpuThreadWorker.processWorker, hs, Option.some.injEq, Prod.mk.injEq] at h
    obtain ⟨rfl, rfl⟩ := h
    simp [CpuThreadWorker.exitTurns, CpuThreadWorker.lastTask, hs]
  | exited => simp [CpuThreadWorker.processWorker, hs] at h

theorem exitTurns_eq_zero_iff {w : CpuThreadWorker τ} :
    w.exitTurns = 0 ↔ w.hasExited = true := by
  cases hs : w.stage with
  | checked => cases hq : w.queue.isEmpty <;>
      simp [CpuThreadWorker.exitTurns, CpuThreadWorker.hasExited, hs, hq]
  | _ => simp [CpuThreadWorker.exitTurns, CpuThreadWorker.hasExited, hs]

theorem exitTurns_run {s t : ThreadPool τ} {i : Nat} {w : CpuThreadWorker τ}
    (hw : s.threads[i]? = some w) (hstopped : w.status = .stopped) {turns : List Nat}
    (hrun : run step s (turns.map .worker) = some t) : ∃ v, t.threads[i]? = some v ∧
      w.exitTurns = v.exitTurns + turns.count i ∧
      w.lastTask = trace step (completed i) s (turns.map .worker) ++ v.lastTask := by
  induction turns generalizing s w with
  | nil =>
    cases hrun
    exact ⟨w, hw, rfl, rfl⟩
  | cons k turns ih =>
    rw [List.map_cons] at hrun ⊢
    obtain ⟨s', hs', hrest⟩ := run_cons.mp hrun
    rw [trace_cons hs']
    by_cases hki : k = i
    · subst hki
      obtain ⟨x, hp, hx⟩ := turn_step (i := k) (by simp [Action.isTurnOf]) hs' hw
      obtain ⟨hturns, hlast⟩ := lastTask_processWorker hstopped hp
      obtain ⟨v, hv, hturns', hlast'⟩ := ih hx ((status_processWorker hp).trans hstopped) hrest
      refine ⟨v, hv, ?_, ?_⟩
      · rw [hturns, hturns', List.count_cons_self, Nat.add_assoc]
      · rw [hlast, hlast', List.append_assoc]
    · obtain ⟨x, v, task, hx, -, rfl⟩ := step_cases hs'
      obtain ⟨v, hv, hturns, hlast⟩ := ih (by simpa [hki] using hw) hstopped hrest
      refine ⟨v, hv, ?_, ?_⟩
      · rw [hturns, List.count_cons_of_ne hki]
      · simpa [completed, hki] using hlast

/-- A stop waits for a worker that is past the check of its status. -/
def stoppingChecked : List (Action Nat) := twoQueued ++ [.worker 0, .stop 1, .callStep]

end ThreadPool
end RoutineHttp
