import RoutineHttp.ThreadPool
import RoutineHttp.Lib.Channel

/-! The order in which a worker executes its tasks, and how long a task waits. Between two
calls of `stop` a worker is a queue: what is put in comes out in the same order, whatever the
other workers and the threads that push do in between. -/
namespace RoutineHttp
open Lib
variable {τ : Type*}

/-- The tasks of a worker in the order it executes them, the one in its thread first. -/
def CpuThreadWorker.content (w : CpuThreadWorker τ) : List τ :=
  match w.stage with
  | .running task => task :: w.queue
  | _ => w.queue

/-- A worker in its loop that has not been told to leave it. -/
def CpuThreadWorker.Live (w : CpuThreadWorker τ) : Prop :=
  w.status = .working ∧ w.hasExited = false

/-- How many of the steps for its first task a worker has made: the check of the status, and
taking the task. -/
def CpuThreadWorker.lead (w : CpuThreadWorker τ) : Nat :=
  match w.stage with
  | .checked => 1
  | .running _ => 2
  | _ => 0

/-- The steps a worker needs to execute the first `n` of its tasks. -/
def CpuThreadWorker.turns (w : CpuThreadWorker τ) (n : Nat) : Nat := 3 * n - w.lead

/-- The task that the next step of a push puts in the queue of a worker. -/
def Push.enqueues (p : Push τ) (i : Nat) : Option τ :=
  match p.stage with
  | .enqueue best => if best = i then some p.task else none
  | _ => none

/-- A stop is about to erase the workers it has joined. -/
def PoolCall.Shrinks : PoolCall τ → Prop
  | .halting _ _ => True
  | .joining _ _ => True
  | _ => False

namespace ThreadPool

def Action.Stops : Action τ → Prop
  | .stop _ => True
  | _ => False

def Action.isTurnOf (i : Nat) : Action τ → Bool
  | .worker k => k == i
  | _ => false

def contentAt (i : Nat) (threads : List (CpuThreadWorker τ)) : List τ :=
  (threads[i]?.map CpuThreadWorker.content).getD []

/-- The task a step puts in the queue of worker `i`: a push of a call of `push`, or one that
a stop makes. -/
def enqueued (i : Nat) (s : ThreadPool τ) : Action τ → Option τ
  | .pushStep j => match s.call with
    | .pushes pushes => pushes[j]?.bind fun p => p.enqueues i
    | _ => none
  | .callStep => match s.call with
    | .moving _ (some p) => p.enqueues i
    | _ => none
  | _ => none

/-- The task a step of worker `i` ends. -/
def completed (i : Nat) (s : ThreadPool τ) : Action τ → Option τ
  | .worker k => if k = i then s.threads[i]?.bind fun w => w.processWorker.bind Prod.snd else none
  | _ => none

theorem content_enqueue (w : CpuThreadWorker τ) (task : τ) :
    (w.enqueue task).content = w.content ++ [task] := by
  cases hs : w.stage <;> simp [CpuThreadWorker.content, CpuThreadWorker.enqueue, hs]

/-- A worker's step ends the first of its tasks or none. -/
theorem content_processWorker {w w' : CpuThreadWorker τ} {task : Option τ}
    (h : w.processWorker = some (w', task)) : w.content = task.toList ++ w'.content := by
  cases hs : w.stage with
  | idle =>
    simp only [CpuThreadWorker.processWorker, hs, Option.some.injEq, Prod.mk.injEq] at h
    obtain ⟨rfl, rfl⟩ := h
    split <;> simp [CpuThreadWorker.content, hs]
  | checked =>
    cases hq : w.queue with
    | nil =>
      simp only [CpuThreadWorker.processWorker, hs, hq, Option.some.injEq, Prod.mk.injEq] at h
      obtain ⟨rfl, rfl⟩ := h
      simp [CpuThreadWorker.content, hs, hq]
    | cons first queue =>
      simp only [CpuThreadWorker.processWorker, hs, hq, Option.some.injEq, Prod.mk.injEq] at h
      obtain ⟨rfl, rfl⟩ := h
      simp [CpuThreadWorker.content, hs, hq]
  | running first =>
    simp only [CpuThreadWorker.processWorker, hs, Option.some.injEq, Prod.mk.injEq] at h
    obtain ⟨rfl, rfl⟩ := h
    simp [CpuThreadWorker.content, hs]
  | exited => simp [CpuThreadWorker.processWorker, hs] at h

section
variable {threads : List (CpuThreadWorker τ)} {k : Nat} {w v : CpuThreadWorker τ}

theorem contentAt_eq {i : Nat} (h : threads[i]? = some w) : contentAt i threads = w.content := by
  rw [contentAt, h, Option.map_some, Option.getD_some]

/-- A worker that is replaced changes its own content only. -/
theorem contentAt_set (hw : threads[k]? = some w) (i : Nat) :
    contentAt i (threads.set k v) = if k = i then v.content else contentAt i threads := by
  obtain ⟨hlt, -⟩ := List.getElem?_eq_some_iff.mp hw
  by_cases hki : k = i
  · subst hki
    rw [if_pos rfl, contentAt_eq (List.getElem?_set_self hlt)]
  · rw [if_neg hki, contentAt, List.getElem?_set_ne hki, contentAt]

/-- A worker whose content stays what it was. -/
theorem contentAt_set_same (hw : threads[k]? = some w) (hsame : v.content = w.content) (i : Nat) :
    contentAt i (threads.set k v) = contentAt i threads := by
  rw [contentAt_set hw, hsame]
  split
  · next hki => rw [← hki, contentAt_eq hw]
  · rfl

theorem contentAt_concat (hempty : w.content = []) (i : Nat) :
    contentAt i (threads ++ [w]) = contentAt i threads := by
  unfold contentAt
  obtain hlt | rfl | hlt := Nat.lt_trichotomy i threads.length
  · rw [List.getElem?_append_left hlt]
  · simp [hempty]
  · rw [List.getElem?_eq_none (by simp; omega), List.getElem?_eq_none (by omega)]

/-- A step of a push adds its task to the worker it enqueues it to. -/
theorem contentAt_push {p : Push τ} {r : PushResult τ} (hr : p.step threads = some r) (i : Nat) :
    contentAt i r.threads = contentAt i threads ++ (p.enqueues i).toList := by
  obtain ⟨stage, hsearch, rfl⟩ | ⟨hstage, rfl⟩ | ⟨best, w, hstage, hw, -, rfl⟩ := Push.step_cases hr
  · have hnone : p.enqueues i = none := by
      cases hp : p.stage <;> simp_all [Push.enqueues, Push.search]
    simp [hnone]
  · simp [Push.enqueues, hstage]
  · rw [contentAt_set hw, Push.enqueues, hstage]
    by_cases hbest : best = i
    · subst hbest
      simp [contentAt_eq hw, content_enqueue]
    · simp [hbest]

end

/-- What a step of the calls of `run` and `stop` does to the content of a worker. -/
theorem fifo_callStep {s t : ThreadPool τ} (hs : ¬ s.call.Shrinks) (h : s.callStep = some t)
    (i : Nat) : ¬ t.call.Shrinks ∧
      contentAt i s.threads ++ (enqueued i s .callStep).toList = contentAt i t.threads := by
  have hcases := callStep_cases h
  rcases hc : s.call with calls | n | ⟨k, n⟩ | ⟨k, n⟩ | ⟨k, n⟩ | ⟨stopped, push⟩ <;>
    simp only [hc] at hcases <;> rw [hc] at hs
  · cases n with
    | zero =>
      subst hcases
      exact ⟨id, by simp [contentAt, enqueued, hc]⟩
    | succ n => exact hcases.elim
  · obtain ⟨w, hw, rfl⟩ := hcases
    refine ⟨id, ?_⟩
    have hsame := contentAt_set_same (v := { w with status := .working }) hw rfl i
    simp [enqueued, hc, hsame]
  · exact absurd trivial hs
  · exact absurd trivial hs
  · cases push with
    | none =>
      have hnone : enqueued i s .callStep = none := by simp [enqueued, hc]
      rw [hnone]
      cases stopped with
      | nil =>
        subst hcases
        exact ⟨id, List.append_nil _⟩
      | cons w stopped =>
        obtain ⟨-, rfl⟩ | ⟨task, queue, -, rfl⟩ := hcases <;> exact ⟨id, List.append_nil _⟩
    | some p =>
      obtain ⟨r, hr, rfl⟩ := callStep_push hc h
      refine ⟨id, ?_⟩
      rw [ThreadPool.after, contentAt_push hr, enqueued, hc]

/-- One step takes a task in at the end, ends the first one, or leaves a worker's tasks. -/
theorem fifo_step {s t : ThreadPool τ} {a : Action τ} (hs : ¬ s.call.Shrinks) (ha : ¬ a.Stops)
    (h : step s a = some t) (i : Nat) : ¬ t.call.Shrinks ∧
      contentAt i s.threads ++ (enqueued i s a).toList = (completed i s a).toList ++ contentAt i t.threads := by
  have hcases := step_cases h
  cases a with
  | run n =>
    obtain ⟨-, rfl⟩ := hcases
    exact ⟨id, List.append_nil _⟩
  | push task =>
    obtain ⟨pushes, -, rfl⟩ := hcases
    exact ⟨id, List.append_nil _⟩
  | stop n => exact absurd trivial ha
  | spawn status =>
    obtain ⟨n, -, rfl⟩ := hcases
    refine ⟨id, (List.append_nil _).trans ?_⟩
    exact (contentAt_concat rfl i).symm
  | pushStep j =>
    obtain ⟨pushes, p, r, hc, hp, hr, rfl⟩ := hcases
    refine ⟨id, ?_⟩
    rw [ThreadPool.after, contentAt_push hr, enqueued, hc]
    simp only [hp, Option.bind_some, completed, Option.toList_none, List.nil_append]
  | callStep =>
    obtain ⟨hnot, hcontent⟩ := fifo_callStep hs hcases i
    exact ⟨hnot, hcontent⟩
  | worker k =>
    obtain ⟨w, w', task, hw, hp, rfl⟩ := hcases
    refine ⟨hs, (List.append_nil _).trans ?_⟩
    rw [contentAt_set hw, completed]
    by_cases hki : k = i
    · subst hki
      simp [hw, hp, contentAt_eq hw, content_processWorker hp]
    · simp [hki]

/-- Between two calls of `stop` a worker executes its tasks in the order in which they were
put in its queue: those it had and those it got are those it has executed and those it has. -/
theorem worker_fifo {s t : ThreadPool τ} {actions : List (Action τ)} (hs : ¬ s.call.Shrinks)
    (hall : ∀ a ∈ actions, ¬ a.Stops) (hrun : run step s actions = some t) (i : Nat) :
    contentAt i s.threads ++ trace step (enqueued i) s actions =
      trace step (completed i) s actions ++ contentAt i t.threads :=
  trace_in_order (fun s => contentAt i s.threads)
    (fun _ _ _ hs ha h => (fifo_step hs ha h i).1) (fun _ _ _ hs ha h => (fifo_step hs ha h i).2)
    hs hall hrun

/-- Worker `i` is there, has not been told to stop, and is at a stage. -/
def At (threads : List (CpuThreadWorker τ)) (i : Nat) (stage : WorkerStage τ) : Prop :=
  ∃ w, threads[i]? = some w ∧ w.status = .working ∧ w.stage = stage

theorem at_set {threads : List (CpuThreadWorker τ)} {i k : Nat} {w v : CpuThreadWorker τ}
    {stage : WorkerStage τ} (h : At threads i stage) (hw : threads[k]? = some w)
    (hstatus : w.status = .working → v.status = .working) (hstage : v.stage = w.stage) :
    At (threads.set k v) i stage := by
  obtain ⟨x, hx, hworking, hat⟩ := h
  by_cases hki : k = i
  · subst hki
    cases hw.symm.trans hx
    obtain ⟨hlt, -⟩ := List.getElem?_eq_some_iff.mp hw
    exact ⟨v, List.getElem?_set_self hlt, hstatus hworking, hstage.trans hat⟩
  · exact ⟨x, (List.getElem?_set_ne hki).trans hx, hworking, hat⟩

theorem at_push {threads : List (CpuThreadWorker τ)} {i : Nat} {stage : WorkerStage τ}
    (h : At threads i stage) {p : Push τ} {r : PushResult τ} (hr : p.step threads = some r) :
    At r.threads i stage := by
  obtain ⟨-, -, rfl⟩ | ⟨-, rfl⟩ | ⟨best, w, -, hw, -, rfl⟩ := Push.step_cases hr
  · exact h
  · exact h
  · exact at_set h hw id rfl

theorem at_callStep {s t : ThreadPool τ} (hs : ¬ s.call.Shrinks) (h : s.callStep = some t)
    {i : Nat} {stage : WorkerStage τ} (hat : At s.threads i stage) : At t.threads i stage := by
  have hcases := callStep_cases h
  rcases hc : s.call with calls | n | ⟨k, n⟩ | ⟨k, n⟩ | ⟨k, n⟩ | ⟨stopped, push⟩ <;>
    simp only [hc] at hcases <;> rw [hc] at hs
  · cases n with
    | zero =>
      subst hcases
      exact hat
    | succ n => exact hcases.elim
  · obtain ⟨w, hw, rfl⟩ := hcases
    exact at_set hat hw (fun _ => rfl) rfl
  · exact absurd trivial hs
  · exact absurd trivial hs
  · cases push with
    | none =>
      cases stopped with
      | nil =>
        subst hcases
        exact hat
      | cons w stopped => obtain ⟨-, rfl⟩ | ⟨task, queue, -, rfl⟩ := hcases <;> exact hat
    | some p =>
      obtain ⟨r, hr, rfl⟩ := callStep_push hc h
      exact at_push hat hr

/-- Its stage changes in a worker's own steps only, and only a stop sets its status. -/
theorem at_step {s t : ThreadPool τ} {a : Action τ} (hs : ¬ s.call.Shrinks) (ha : ¬ a.Stops)
    (h : step s a = some t) {i : Nat} (hi : a.isTurnOf i = false) {stage : WorkerStage τ}
    (hat : At s.threads i stage) : At t.threads i stage ∧ completed i s a = none := by
  have hcases := step_cases h
  cases a with
  | run n =>
    obtain ⟨-, rfl⟩ := hcases
    exact ⟨hat, rfl⟩
  | push task =>
    obtain ⟨pushes, -, rfl⟩ := hcases
    exact ⟨hat, rfl⟩
  | stop n => exact absurd trivial ha
  | spawn status =>
    obtain ⟨n, -, rfl⟩ := hcases
    obtain ⟨w, hw, hstage⟩ := hat
    obtain ⟨hlt, -⟩ := List.getElem?_eq_some_iff.mp hw
    exact ⟨⟨w, (List.getElem?_append_left hlt).trans hw, hstage⟩, rfl⟩
  | pushStep j =>
    obtain ⟨pushes, p, r, -, -, hr, rfl⟩ := hcases
    exact ⟨at_push hat hr, rfl⟩
  | callStep => exact ⟨at_callStep hs hcases hat, rfl⟩
  | worker k =>
    obtain ⟨w, w', task, hw, hp, rfl⟩ := hcases
    have hki : k ≠ i := by simpa [Action.isTurnOf] using hi
    obtain ⟨x, hx, hstage⟩ := hat
    exact ⟨⟨x, (List.getElem?_set_ne hki).trans hx, hstage⟩, by simp [completed, hki]⟩

/-- A worker with something to do comes a step closer to the end of any of its tasks in each of
its own steps. -/
theorem turns_processWorker {w v : CpuThreadWorker τ} {task : Option τ} {n : Nat}
    (h : w.processWorker = some (v, task)) (hlive : w.Live) (hpos : 0 < task.toList.length + n)
    (hle : task.toList.length + n ≤ w.content.length) :
    v.Live ∧ w.turns (task.toList.length + n) = v.turns n + 1 := by
  obtain ⟨hstatus, hexited⟩ := hlive
  cases hs : w.stage with
  | idle =>
    simp only [CpuThreadWorker.processWorker, hs, Option.some.injEq, Prod.mk.injEq] at h
    obtain ⟨rfl, rfl⟩ := h
    simp only [Option.toList_none, List.length_nil, Nat.zero_add] at hpos ⊢
    simp only [CpuThreadWorker.Live, CpuThreadWorker.hasExited, CpuThreadWorker.turns,
      CpuThreadWorker.lead, hs, hstatus, reduceCtorEq, if_false, and_self, true_and]
    omega
  | checked =>
    cases hq : w.queue with
    | nil =>
      simp only [CpuThreadWorker.content, hs, hq, List.length_nil] at hle
      omega
    | cons first queue =>
      simp only [CpuThreadWorker.processWorker, hs, hq, Option.some.injEq, Prod.mk.injEq] at h
      obtain ⟨rfl, rfl⟩ := h
      simp only [Option.toList_none, List.length_nil, Nat.zero_add] at hpos ⊢
      simp only [CpuThreadWorker.Live, CpuThreadWorker.hasExited, CpuThreadWorker.turns,
        CpuThreadWorker.lead, hs, hstatus, and_self, true_and]
      omega
  | running first =>
    simp only [CpuThreadWorker.processWorker, hs, Option.some.injEq, Prod.mk.injEq] at h
    obtain ⟨rfl, rfl⟩ := h
    simp only [CpuThreadWorker.Live, CpuThreadWorker.hasExited, CpuThreadWorker.turns,
      CpuThreadWorker.lead, hs, hstatus, and_self, true_and, Option.toList_some,
      List.length_singleton]
    omega
  | exited => simp [CpuThreadWorker.processWorker, hs] at h

theorem turn_step {s t : ThreadPool τ} {a : Action τ} {i : Nat} (hi : a.isTurnOf i = true)
    (h : step s a = some t) {w : CpuThreadWorker τ} (hw : s.threads[i]? = some w) :
    ∃ v, w.processWorker = some (v, completed i s a) ∧ t.threads[i]? = some v := by
  have hcases := step_cases h
  cases a with
  | worker k =>
    obtain rfl : k = i := by simpa [Action.isTurnOf] using hi
    obtain ⟨x, v, task, hx, hp, rfl⟩ := hcases
    cases hx.symm.trans hw
    obtain ⟨hlt, -⟩ := List.getElem?_eq_some_iff.mp hw
    exact ⟨v, by simp [completed, hw, hp], List.getElem?_set_self hlt⟩
  | run n => cases hi
  | push task => cases hi
  | stop n => cases hi
  | spawn status => cases hi
  | pushStep j => cases hi
  | callStep => cases hi

/-- Whatever else happens, the first tasks of a worker have been executed as soon as it has made
its steps for them, and not before. -/
theorem served_in_time {s t : ThreadPool τ} {actions : List (Action τ)} (hs : ¬ s.call.Shrinks)
    (hall : ∀ a ∈ actions, ¬ a.Stops) (hrun : run step s actions = some t) {i : Nat}
    {w : CpuThreadWorker τ} (hw : s.threads[i]? = some w) (hlive : w.Live) {first : List τ}
    (hfirst : first <+: w.content) : first <+: trace step (completed i) s actions ↔
      w.turns first.length ≤ actions.countP (Action.isTurnOf i) := by
  induction actions generalizing s w first with
  | nil =>
    cases first with
    | nil => simp [CpuThreadWorker.turns, trace]
    | cons task first =>
      have hlead : w.lead ≤ 2 := by
        cases hstage : w.stage <;> simp [CpuThreadWorker.lead, hstage]
      simp only [trace, List.prefix_nil, reduceCtorEq, CpuThreadWorker.turns, List.length_cons,
        List.countP_nil, false_iff]
      omega
  | cons a actions ih =>
    obtain ⟨s', hs', hrest⟩ := run_cons.mp hrun
    obtain ⟨ha, hall⟩ := List.forall_mem_cons.mp hall
    obtain ⟨hcall, hcontent⟩ := fifo_step hs ha hs' i
    rw [contentAt_eq hw] at hcontent
    rw [trace_cons hs', List.countP_cons]
    cases hturn : a.isTurnOf i with
    | false =>
      obtain ⟨⟨v, hv, hstatus, hstage⟩, hnone⟩ := at_step hs ha hs' hturn ⟨w, hw, hlive.1, rfl⟩
      have hlive' : v.Live := by
        refine ⟨hstatus, ?_⟩
        rw [CpuThreadWorker.hasExited, hstage]
        exact hlive.2
      rw [hnone, contentAt_eq hv, Option.toList_none, List.nil_append] at hcontent
      have hfirst' : first <+: v.content := hcontent ▸ hfirst.trans (List.prefix_append _ _)
      have hturns : w.turns first.length = v.turns first.length := by
        rw [CpuThreadWorker.turns, CpuThreadWorker.turns, CpuThreadWorker.lead,
          CpuThreadWorker.lead, hstage]
      rw [hnone, hturns]
      simpa using ih hcall hall hrest hv hlive' hfirst'
    | true =>
      obtain ⟨v, hp, hv⟩ := turn_step hturn hs' hw
      rw [if_pos rfl]
      cases first with
      | nil => simp [CpuThreadWorker.turns]
      | cons x first =>
        generalize htask : completed i s a = task at hp
        have hdone := content_processWorker hp
        have hone : task.toList.length ≤ (x :: first).length := by
          cases task <;> simp
        -- what the step has executed is what the tasks begin with
        obtain ⟨later, hlater⟩ : task.toList <+: x :: first :=
          List.prefix_of_prefix_length_le ⟨_, hdone.symm⟩ hfirst hone
        rw [← hlater] at hfirst ⊢
        have hrest' : later <+: v.content := by
          rwa [hdone, List.prefix_append_right_inj] at hfirst
        have hpos : 0 < task.toList.length + later.length := by
          rw [← List.length_append, hlater]
          exact Nat.succ_pos _
        have hle : task.toList.length + later.length ≤ w.content.length := by
          rw [← List.length_append]
          exact hfirst.length_le
        obtain ⟨hlive', hturns⟩ := turns_processWorker hp hlive hpos hle
        rw [List.length_append, hturns, List.prefix_append_right_inj,
          ih hcall hall hrest hv hlive' hrest', Nat.add_le_add_iff_right]

/-- One worker with two tasks. -/
def twoTasks : ThreadPool Nat := { threads := [{ status := .working, queue := [7, 8] }] }

/-- It executes the first while another thread pushes a third. -/
def firstTask : List (Action Nat) :=
  [.worker 0, .push 9, .worker 0, .pushStep 0, .pushStep 0, .pushStep 0, .worker 0, .pushStep 0,
    .pushStep 0]

theorem firstTask_not_stops : ∀ a ∈ firstTask, ¬ a.Stops := by simp [firstTask, Action.Stops]

theorem worker_fifo_firstTask : ∃ t, run step twoTasks firstTask = some t ∧
    contentAt 0 t.threads = [8, 9] ∧
    [7, 8] ++ trace step (enqueued 0) twoTasks firstTask =
      trace step (completed 0) twoTasks firstTask ++ contentAt 0 t.threads := by
  obtain ⟨t, ht⟩ : ∃ t, run step twoTasks firstTask = some t := ⟨_, rfl⟩
  have hcontent : contentAt 0 t.threads = [8, 9] := by
    cases ht
    rfl
  exact ⟨t, ht, hcontent, worker_fifo id firstTask_not_stops ht 0⟩

theorem served_in_time_firstTask : [7] <+: trace step (completed 0) twoTasks firstTask ∧
    ¬ [7, 8] <+: trace step (completed 0) twoTasks firstTask := by
  obtain ⟨t, ht⟩ : ∃ t, run step twoTasks firstTask = some t := ⟨_, rfl⟩
  have hserved : ∀ {first : List Nat}, first <+: [7, 8] →
      (first <+: trace step (completed 0) twoTasks firstTask ↔ 3 * first.length ≤ 3) :=
    fun hfirst => served_in_time id firstTask_not_stops ht (i := 0) rfl ⟨rfl, rfl⟩ hfirst
  exact ⟨(hserved (by decide)).mpr (by decide), fun h => absurd ((hserved (by decide)).mp h)
    (by decide)⟩

end ThreadPool
end RoutineHttp
