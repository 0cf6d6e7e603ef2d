import RoutineHttp.ThreadPool
import Mathlib.Tactic.Abel

/-! No task of a thread pool is lost or executed twice: where every task is, in every state
the pool can reach. -/
namespace RoutineHttp
open Lib
variable {τ : Type*}

/-- The tasks in the hands of a call. -/
def PoolCall.tasks : PoolCall τ → Multiset τ
  | .pushes calls => total (fun p => {p.task}) calls
  | .moving stopped push => total CpuThreadWorker.waiting stopped +
      total (fun p => {p.task}) push.toList
  | _ => 0

/-- The workers that a call of `stop` has joined have exited. -/
def PoolCall.Joined (threads : List (CpuThreadWorker τ)) : PoolCall τ → Prop
  | .halting i n => n ≤ threads.length ∧ ∀ j < i, ∀ w, threads[j]? = some w → w.hasExited = true
  | .joining i n => n ≤ threads.length ∧ ∀ j < i, ∀ w, threads[j]? = some w → w.hasExited = true
  | _ => True

namespace ThreadPool

def running (s : ThreadPool τ) : Multiset τ := total CpuThreadWorker.running s.threads

def waiting (s : ThreadPool τ) : Multiset τ := total CpuThreadWorker.waiting s.threads

def tasksCount (s : ThreadPool τ) : Nat := s.threads.foldl (fun a w => a + w.queue.length) 0

/-- No call is in progress. -/
def Quiet (s : ThreadPool τ) : Prop := s.call = .pushes []

structure Conserved (s : ThreadPool τ) : Prop where
  tasks : s.pushed = s.executed + s.running + s.waiting + s.call.tasks + s.discarded
  joined : s.call.Joined s.threads

theorem running_of_hasExited {w : CpuThreadWorker τ} (h : w.hasExited = true) : w.running = 0 := by
  cases hs : w.stage <;> simp_all [CpuThreadWorker.hasExited, CpuThreadWorker.running]

/-- A worker's step passes a task on: from the queue to the thread, or from the thread to the
executed ones. -/
theorem processWorker_tasks {w w' : CpuThreadWorker τ} {task : Option τ}
    (h : w.processWorker = some (w', task)) :
    w'.running + w'.waiting + Multiset.ofList task.toList = w.running + w.waiting ∧
      w.hasExited = false := by
  cases hs : w.stage with
  | idle =>
    simp only [CpuThreadWorker.processWorker, hs, Option.some.injEq, Prod.mk.injEq] at h
    obtain ⟨rfl, rfl⟩ := h
    split <;> simp [CpuThreadWorker.running, CpuThreadWorker.waiting, CpuThreadWorker.hasExited, hs]
  | checked =>
    cases hq : w.queue with
    | nil =>
      simp only [CpuThreadWorker.processWorker, hs, hq, Option.some.injEq, Prod.mk.injEq] at h
      obtain ⟨rfl, rfl⟩ := h
      simp [CpuThreadWorker.running, CpuThreadWorker.waiting, CpuThreadWorker.hasExited, hs, hq]
    | cons first queue =>
      simp only [CpuThreadWorker.processWorker, hs, hq, Option.some.injEq, Prod.mk.injEq] at h
      obtain ⟨rfl, rfl⟩ := h
      simp [CpuThreadWorker.running, CpuThreadWorker.waiting, CpuThreadWorker.hasExited, hs, hq]
  | running first =>
    simp only [CpuThreadWorker.processWorker, hs, Option.some.injEq, Prod.mk.injEq] at h
    obtain ⟨rfl, rfl⟩ := h
    simp [CpuThreadWorker.running, CpuThreadWorker.waiting, CpuThreadWorker.hasExited, hs, add_comm]
  | exited => simp [CpuThreadWorker.processWorker, hs] at h

theorem push_step_tasks {threads : List (CpuThreadWorker τ)} {p : Push τ} {r : PushResult τ}
    (h : p.step threads = some r) :
    total CpuThreadWorker.running r.threads = total CpuThreadWorker.running threads ∧
      total CpuThreadWorker.waiting r.threads + total (fun p => {p.task}) r.rest.toList +
        Multiset.ofList r.executed.toList = total CpuThreadWorker.waiting threads + {p.task} ∧
      r.threads.length = threads.length := by
  obtain ⟨stage, -, rfl⟩ | ⟨-, rfl⟩ | ⟨best, w, -, hw, -, rfl⟩ := Push.step_cases h
  · simp
  · simp
  · refine ⟨total_set_of_eq hw rfl, ?_, by simp⟩
    have hset := total_set CpuThreadWorker.waiting hw (w.enqueue p.task)
    have hw' : (w.enqueue p.task).waiting = w.waiting + {p.task} := by
      simp [CpuThreadWorker.waiting, CpuThreadWorker.enqueue, ← Multiset.coe_add]
    rw [hw', ← add_assoc, add_right_comm] at hset
    simpa using add_right_cancel hset

theorem held_set {threads : List (CpuThreadWorker τ)} {i : Nat} {w w' : CpuThreadWorker τ}
    {m : Multiset τ} (hw : threads[i]? = some w)
    (h : w'.running + w'.waiting + m = w.running + w.waiting) :
    total CpuThreadWorker.running (threads.set i w') +
        total CpuThreadWorker.waiting (threads.set i w') + m =
      total CpuThreadWorker.running threads + total CpuThreadWorker.waiting threads := by
  have hrun := total_set CpuThreadWorker.running hw w'
  have hwait := total_set CpuThreadWorker.waiting hw w'
  refine add_right_cancel (b := w.running + w.waiting) ?_
  calc
    _ = (total CpuThreadWorker.running (threads.set i w') + w.running) +
        (total CpuThreadWorker.waiting (threads.set i w') + w.waiting) + m := by abel
    _ = total CpuThreadWorker.running threads + total CpuThreadWorker.waiting threads +
        (w'.running + w'.waiting + m) := by
      rw [hrun, hwait]
      abel
    _ = _ := by rw [h]

/-- A worker that has exited stays out of every change to the others. -/
theorem joined_set {threads : List (CpuThreadWorker τ)} (call : PoolCall τ) {i : Nat}
    {w w' : CpuThreadWorker τ} (h : call.Joined threads) (hw : threads[i]? = some w)
    (hexited : w.hasExited = true → w'.hasExited = true) : call.Joined (threads.set i w') := by
  have hset : ∀ n : Nat, (∀ j < n, ∀ w, threads[j]? = some w → w.hasExited = true) →
      ∀ j < n, ∀ x, (threads.set i w')[j]? = some x → x.hasExited = true := by
    intro n hall j hj x hx
    rw [List.getElem?_set] at hx
    split at hx
    · next hij =>
      split at hx
      · cases hx
        exact hexited (hall i (hij ▸ hj) w hw)
      · cases hx
    · exact hall j hj x hx
  cases call with
  | halting k n => exact ⟨by simpa using h.1, hset k h.2⟩
  | joining k n => exact ⟨by simpa using h.1, hset k h.2⟩
  | pushes calls => trivial
  | starting n => trivial
  | building k n => trivial
  | moving stopped push => trivial

theorem conserved_worker {s : ThreadPool τ} (hs : s.Conserved) {i : Nat} {w w' : CpuThreadWorker τ}
    {task : Option τ} (hw : s.threads[i]? = some w) (hp : w.processWorker = some (w', task)) :
    Conserved { s with
      threads := s.threads.set i w', executed := s.executed + Multiset.ofList task.toList } := by
  obtain ⟨htasks, hlive⟩ := processWorker_tasks hp
  have hheld := held_set hw htasks
  constructor
  · rw [hs.tasks, running, waiting, running, waiting, add_assoc s.executed, ← hheld]
    dsimp only
    abel
  · exact joined_set _ hs.joined hw fun h => by simp [h] at hlive

/-- A step of a push in a call that goes on with the rest of the push. -/
theorem conserved_after {s : ThreadPool τ} (hs : s.Conserved) {p : Push τ} {r : PushResult τ}
    {call : PoolCall τ} (hr : p.step s.threads = some r)
    (hcall : call.tasks + {p.task} = s.call.tasks + total (fun p => {p.task}) r.rest.toList)
    (hjoined : call.Joined r.threads) : (s.after r call).Conserved := by
  obtain ⟨hrun, hwait, -⟩ := push_step_tasks hr
  refine ⟨?_, hjoined⟩
  refine add_right_cancel (b := {p.task}) ?_
  calc
    s.pushed + {p.task} = s.executed + s.running + (s.waiting + {p.task}) + s.call.tasks +
        s.discarded := by
      rw [hs.tasks]
      abel
    _ = s.executed + Multiset.ofList r.executed.toList + total CpuThreadWorker.running r.threads +
        total CpuThreadWorker.waiting r.threads +
        (s.call.tasks + total (fun p => {p.task}) r.rest.toList) + s.discarded := by
      rw [waiting, ← hwait, hrun, running]
      abel
    _ = _ := by
      rw [← hcall, after, running, waiting]
      dsimp only
      abel

theorem conserved_erase {s : ThreadPool τ} (hs : s.Conserved) {n : Nat}
    (hn : n ≤ s.threads.length) (hcall : s.call.tasks = 0)
    (hexited : ∀ j < n, ∀ w, s.threads[j]? = some w → w.hasExited = true) :
    (s.erase n).Conserved := by
  have hzero : total CpuThreadWorker.running (s.threads.take n) = 0 := by
    refine total_eq_zero fun w hw => ?_
    obtain ⟨j, hj, hw⟩ := List.mem_take_iff_getElem.mp hw
    exact running_of_hasExited (hexited j (by omega) w (List.getElem?_eq_some_iff.mpr ⟨_, hw⟩))
  have hrun := total_take_add_drop CpuThreadWorker.running n s.threads
  have hwait := total_take_add_drop CpuThreadWorker.waiting n s.threads
  have htasks := hs.tasks
  rw [hcall, running, waiting, ← hrun, ← hwait, hzero] at htasks
  unfold erase
  split
  · next hnil =>
    refine ⟨?_, trivial⟩
    rw [htasks, hnil]
    simp [running, waiting, PoolCall.tasks, add_comm, add_left_comm]
  · next w rest hcons =>
    refine ⟨?_, trivial⟩
    rw [htasks, hcons]
    simp only [running, waiting, PoolCall.tasks, zero_add, Option.toList_none, total_nil, add_zero]
    abel

/-- Tasks change hands between the workers and the call. -/
theorem conserved_move {s : ThreadPool τ} (hs : s.Conserved) {threads : List (CpuThreadWorker τ)}
    {call : PoolCall τ}
    (h : total CpuThreadWorker.running threads + total CpuThreadWorker.waiting threads +
      call.tasks = s.running + s.waiting + s.call.tasks)
    (hjoined : call.Joined threads) : Conserved { s with threads, call } := by
  refine ⟨?_, hjoined⟩
  calc
    s.pushed = s.executed + (s.running + s.waiting + s.call.tasks) + s.discarded := by
      rw [hs.tasks]
      abel
    _ = _ := by
      rw [← h, running, waiting]
      dsimp only
      abel

theorem conserved_callStep {s t : ThreadPool τ} (hs : s.Conserved) (h : s.callStep = some t) :
    t.Conserved := by
  have hcases := callStep_cases h
  have hjoined := hs.joined
  rcases hc : s.call with calls | n | ⟨i, n⟩ | ⟨i, n⟩ | ⟨i, n⟩ | ⟨stopped, push⟩ <;>
    simp only [hc] at hcases <;> rw [hc] at hjoined
  · cases n with
    | zero =>
      simp only at hcases
      subst hcases
      exact conserved_move hs (by rw [hc]; rfl) trivial
    | succ n => exact hcases.elim
  · obtain ⟨w, hw, rfl⟩ := hcases
    refine conserved_move hs ?_ trivial
    rw [hc, total_set_of_eq (y := { w with status := .working }) hw rfl,
      total_set_of_eq (y := { w with status := .working }) hw rfl]
    rfl
  · obtain ⟨hle, rfl⟩ | ⟨hlt, w, hw, rfl⟩ := hcases
    · exact conserved_erase hs hjoined.1 (by rw [hc]; rfl) fun j hj => hjoined.2 j (by omega)
    · refine conserved_move hs ?_ (joined_set (.joining i n) hjoined hw id)
      rw [hc, total_set_of_eq (y := { w with status := .stopped }) hw rfl,
        total_set_of_eq (y := { w with status := .stopped }) hw rfl]
      rfl
  · obtain ⟨w, hw, hexited, rfl⟩ := hcases
    refine conserved_move hs (by rw [hc]; rfl) ⟨hjoined.1, fun j hj x hx => ?_⟩
    obtain hlt | rfl := Nat.lt_succ_iff_lt_or_eq.mp hj
    · exact hjoined.2 j hlt x hx
    · cases hw.symm.trans hx
      exact hexited
  · cases push with
    | none =>
      cases stopped with
      | nil =>
        subst hcases
        exact conserved_move hs (by rw [hc]; rfl) trivial
      | cons w stopped =>
        obtain ⟨hq, rfl⟩ | ⟨task, queue, hq, rfl⟩ := hcases <;>
          refine conserved_move hs ?_ trivial <;> rw [hc]
        · simp [PoolCall.tasks, running, waiting, CpuThreadWorker.waiting, hq]
        · have hw : (w.queue : Multiset τ) = {task} + (queue : Multiset τ) := by
            rw [hq]
            rfl
          have hstart : (Push.start s.threads task).task = task := rfl
          simp only [PoolCall.tasks, total_cons, hstart, Option.toList_none, Option.toList_some,
            total_nil, running, waiting, CpuThreadWorker.waiting, hw]
          abel
    | some p =>
      obtain ⟨r, hr, rfl⟩ := callStep_push hc h
      refine conserved_after hs hr ?_ trivial
      rw [hc]
      simp [PoolCall.tasks, add_right_comm]

/-- Every step of the pool keeps account of the tasks. -/
theorem conserved_step (s : ThreadPool τ) (a : Action τ) (t : ThreadPool τ) (hs : s.Conserved)
    (h : step s a = some t) : t.Conserved := by
  have hcases := step_cases h
  cases a with
  | run n =>
    obtain ⟨hc, rfl⟩ := hcases
    exact conserved_move hs (by rw [hc]; rfl) trivial
  | push task =>
    obtain ⟨calls, hc, rfl⟩ := hcases
    refine ⟨?_, trivial⟩
    rw [hs.tasks, hc]
    simp only [PoolCall.tasks, total_append, total_cons, total_nil, running, waiting, Push.start]
    abel
  | stop n =>
    obtain ⟨hc, rfl⟩ := hcases
    exact conserved_move hs (by rw [hc]; rfl)
      ⟨Nat.min_le_right .., fun j hj => absurd hj (Nat.not_lt_zero j)⟩
  | spawn status =>
    obtain ⟨n, hc, rfl⟩ := hcases
    refine conserved_move hs ?_ trivial
    rw [hc]
    simp [PoolCall.tasks, running, waiting, CpuThreadWorker.running, CpuThreadWorker.waiting]
  | pushStep j =>
    obtain ⟨calls, p, r, hc, hp, hr, rfl⟩ := hcases
    refine conserved_after hs hr ?_ (by cases r.rest <;> trivial)
    rw [hc]
    cases r.rest with
    | none => simpa [PoolCall.tasks] using total_eraseIdx hp
    | some p' => simpa [PoolCall.tasks] using total_set _ hp p'
  | callStep => exact conserved_callStep hs hcases
  | worker i =>
    obtain ⟨w, w', task, hw, hp, rfl⟩ := hcases
    exact conserved_worker hs hw hp

theorem conserved_run {actions : List (Action τ)} {s : ThreadPool τ}
    (h : run step {} actions = some s) : s.Conserved := by
  have hfresh : Conserved ({} : ThreadPool τ) := ⟨rfl, trivial⟩
  exact run_invariant conserved_step hfresh h

theorem card_waiting (s : ThreadPool τ) : s.waiting.card = s.tasksCount := by
  have hfold : ∀ (threads : List (CpuThreadWorker τ)) (a : Nat),
      threads.foldl (fun a w => a + w.queue.length) a =
        a + (total CpuThreadWorker.waiting threads).card := by
    intro threads
    induction threads with
    | nil => simp
    | cons w threads ih =>
      intro a
      simp only [List.foldl_cons, ih, total_cons, Multiset.card_add, CpuThreadWorker.waiting,
        Multiset.coe_card]
      omega
  simp [tasksCount, waiting, hfold]

/-- At most one task for each worker whose thread has not returned. -/
theorem card_running_le (s : ThreadPool τ) :
    s.running.card ≤ s.threads.countP fun w => !w.hasExited := by
  unfold running
  induction s.threads with
  | nil => simp
  | cons w threads ih =>
    have hw : w.running.card ≤ if (!w.hasExited) = true then 1 else 0 := by
      cases hs : w.stage <;> simp [CpuThreadWorker.running, CpuThreadWorker.hasExited, hs]
    rw [total_cons, Multiset.card_add, List.countP_cons]
    omega

theorem discarded_erase (s : ThreadPool τ) (n : Nat) :
    (s.erase n).discarded = s.discarded ∨ (s.erase n).threads = [] := by
  unfold erase
  split
  · exact Or.inr rfl
  · exact Or.inl rfl

/-- Only the end of a stop that leaves no worker discards anything. -/
theorem discarded_step {s t : ThreadPool τ} {a : Action τ} (h : step s a = some t) :
    t.discarded = s.discarded ∨ (∃ i n, s.call = .halting i n) ∧ t.threads = [] := by
  have hcases := step_cases h
  cases a with
  | run n => exact Or.inl (by rw [hcases.2])
  | push task =>
    obtain ⟨calls, -, rfl⟩ := hcases
    exact Or.inl rfl
  | stop n => exact Or.inl (by rw [hcases.2])
  | spawn status =>
    obtain ⟨n, -, rfl⟩ := hcases
    exact Or.inl rfl
  | pushStep j =>
    obtain ⟨calls, p, r, -, -, -, rfl⟩ := hcases
    exact Or.inl rfl
  | worker i =>
    obtain ⟨w, w', task, -, -, rfl⟩ := hcases
    exact Or.inl rfl
  | callStep =>
    have hcall := callStep_cases hcases
    rcases hc : s.call with calls | n | ⟨i, n⟩ | ⟨i, n⟩ | ⟨i, n⟩ | ⟨stopped, push⟩ <;>
      simp only [hc] at hcall
    · cases n with
      | zero => exact Or.inl (by rw [hcall])
      | succ n => exact hcall.elim
    · obtain ⟨w, -, rfl⟩ := hcall
      exact Or.inl rfl
    · obtain ⟨-, rfl⟩ | ⟨-, w, -, rfl⟩ := hcall
      · exact (discarded_erase s n).imp id fun hnil => ⟨⟨i, n, rfl⟩, hnil⟩
      · exact Or.inl rfl
    · obtain ⟨w, -, -, rfl⟩ := hcall
      exact Or.inl rfl
    · cases push with
      | none =>
        cases stopped with
        | nil => exact Or.inl (by rw [hcall])
        | cons w stopped => obtain ⟨-, rfl⟩ | ⟨task, queue, -, rfl⟩ := hcall <;> exact Or.inl rfl
      | some p =>
        obtain ⟨r, -, rfl⟩ := callStep_push hc hcases
        exact Or.inl rfl

def Action.StartsCall : Action τ → Prop
  | .run _ => True
  | .push _ => True
  | .stop _ => True
  | _ => False

/-- A stop on its way to leaving a number of workers, with what was discarded before it. -/
def Stopping (left : Nat) (lost : Multiset τ) (s : ThreadPool τ) : Prop :=
  match s.call with
  | .pushes _ => s.threads.length = left ∧ (left ≠ 0 → s.discarded = lost)
  | .starting _ => False
  | .building _ _ => False
  | .halting _ n => s.threads.length = n + left ∧ s.discarded = lost
  | .joining _ n => s.threads.length = n + left ∧ s.discarded = lost
  | .moving _ _ => s.threads.length = left ∧ s.discarded = lost

theorem stopping_erase {s : ThreadPool τ} {left n : Nat} (hlen : s.threads.length = n + left) :
    Stopping left s.discarded (s.erase n) := by
  have hdrop : (s.threads.drop n).length = left := by
    rw [List.length_drop]
    omega
  unfold erase
  split
  · next hnil =>
    rw [hnil] at hdrop
    exact ⟨hdrop, fun h => absurd hdrop.symm h⟩
  · next w rest hcons =>
    rw [hcons] at hdrop
    exact ⟨hdrop, rfl⟩

theorem stopping_callStep {s t : ThreadPool τ} {left : Nat} {lost : Multiset τ}
    (hs : Stopping left lost s) (h : s.callStep = some t) : Stopping left lost t := by
  have hcases := callStep_cases h
  unfold Stopping at hs
  rcases hc : s.call with calls | n | ⟨i, n⟩ | ⟨i, n⟩ | ⟨i, n⟩ | ⟨stopped, push⟩ <;>
    simp only [hc] at hcases hs
  · obtain ⟨hle, rfl⟩ | ⟨hlt, w, hw, rfl⟩ := hcases
    · exact hs.2 ▸ stopping_erase hs.1
    · exact ⟨by simpa using hs.1, hs.2⟩
  · obtain ⟨w, hw, hexited, rfl⟩ := hcases
    exact hs
  · cases push with
    | none =>
      cases stopped with
      | nil =>
        subst hcases
        exact ⟨hs.1, fun _ => hs.2⟩
      | cons w stopped =>
        obtain ⟨hq, rfl⟩ | ⟨task, queue, hq, rfl⟩ := hcases <;> exact hs
    | some p =>
      obtain ⟨r, hr, rfl⟩ := callStep_push hc h
      exact ⟨(push_step_tasks hr).2.2.trans hs.1, hs.2⟩

theorem stopping_step {s t : ThreadPool τ} {a : Action τ} {left : Nat} {lost : Multiset τ}
    (hs : Stopping left lost s) (ha : ¬ a.StartsCall) (h : step s a = some t) :
    Stopping left lost t := by
  have hcases := step_cases h
  cases a with
  | run n => exact absurd trivial ha
  | push task => exact absurd trivial ha
  | stop n => exact absurd trivial ha
  | spawn status =>
    obtain ⟨n, hc, rfl⟩ := hcases
    simp [Stopping, hc] at hs
  | pushStep j =>
    obtain ⟨calls, p, r, hc, hp, hr, rfl⟩ := hcases
    simp only [Stopping, hc] at hs
    exact ⟨(push_step_tasks hr).2.2.trans hs.1, hs.2⟩
  | callStep => exact stopping_callStep hs hcases
  | worker i =>
    obtain ⟨w, w', task, hw, hp, rfl⟩ := hcases
    unfold Stopping at hs ⊢
    simpa using hs

/-- A stop and whatever the workers do until the next call: it ends with the workers it had
to leave, and if there are any it has discarded nothing. -/
theorem stop_keeps {s t : ThreadPool τ} {n : Nat} {steps : List (Action τ)}
    (hsteps : ∀ a ∈ steps, ¬ a.StartsCall) (h : run step s (.stop n :: steps) = some t)
    (ht : t.Quiet) :
    t.threads.length = s.threads.length - n ∧ (t.threads ≠ [] → t.discarded = s.discarded) := by
  obtain ⟨s', hs', hrest⟩ := run_cons.mp h
  have hstart : Stopping (s.threads.length - n) s.discarded s' := by
    obtain ⟨hc, rfl⟩ := step_cases hs'
    refine ⟨?_, rfl⟩
    dsimp only
    omega
  have hend : Stopping (s.threads.length - n) s.discarded t := by
    clear h hs'
    induction steps generalizing s' with
    | nil =>
      cases hrest
      exact hstart
    | cons a steps ih =>
      obtain ⟨s'', hs'', hrest⟩ := run_cons.mp hrest
      exact ih (fun b hb => hsteps b (List.mem_cons_of_mem _ hb)) s'' hrest
        (stopping_step hstart (hsteps a (List.mem_cons_self ..)) hs'')
  simp only [Stopping, show t.call = .pushes [] from ht] at hend
  refine ⟨hend.1, fun hne => hend.2 ?_⟩
  rw [← hend.1]
  exact fun hlen => hne (List.length_eq_zero_iff.mp hlen)

/-- Where the tasks of a pool are when no call is in progress. -/
structure Accounted (s : ThreadPool τ) : Prop where
  tasks : s.pushed = s.executed + s.running + s.waiting + s.discarded
  count : s.waiting.card = s.tasksCount
  live : s.running.card ≤ s.threads.countP fun w => !w.hasExited

/-- Two workers and a task in the queue of each. -/
def twoQueued : List (Action Nat) :=
  [.run 2, .spawn .stopped, .callStep, .spawn .working, .callStep, .callStep, .push 7,
    .pushStep 0, .pushStep 0, .push 8, .pushStep 0, .pushStep 0, .pushStep 0, .pushStep 0]

/-- The first worker returns, and its task goes to the second. -/
def stopFirst : List (Action Nat) :=
  [.callStep, .worker 0, .callStep, .callStep, .callStep, .callStep, .callStep, .callStep,
    .callStep, .callStep, .callStep]

end ThreadPool
end RoutineHttp
