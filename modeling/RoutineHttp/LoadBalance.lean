import RoutineHttp.ThreadPool

/-! A push that no other thread gets in between of. The loop over the workers keeps the index
of the best one and the size of its queue; an empty queue ends it with the index alone. -/
namespace RoutineHttp.LoadBalance
open Lib
variable {τ : Type*}

def queueSize (w : CpuThreadWorker τ) : Nat := w.queue.length

/-- The loop of `push` from the worker `i` on: the first of the pair it ends with. -/
def leastLoaded (i best count : Nat) : List (CpuThreadWorker τ) → Nat
  | [] => best
  | w :: rest =>
    if w.queue.isEmpty then i
    else if queueSize w < count then leastLoaded (i + 1) i (queueSize w) rest
    else leastLoaded (i + 1) best count rest

/-- The workers after a push, and the task where it has been executed at once. -/
def push (threads : List (CpuThreadWorker τ)) (task : τ) :
    List (CpuThreadWorker τ) × Option τ :=
  match threads with
  | [] => ([], some task)
  | w :: rest =>
    ((w :: rest).modify (leastLoaded 0 0 (queueSize w) (w :: rest)) (·.enqueue task), none)

def pushAll (threads : List (CpuThreadWorker τ)) (tasks : List τ) : List (CpuThreadWorker τ) :=
  tasks.foldl (fun threads task => (push threads task).1) threads

def tasksCount (threads : List (CpuThreadWorker τ)) : Nat :=
  threads.foldl (fun a b => a + queueSize b) 0

theorem tasksCount_eq_total (threads : List (CpuThreadWorker τ)) :
    tasksCount threads = total queueSize threads := by
  have hfrom : ∀ a, threads.foldl (fun a b => a + queueSize b) a = a + total queueSize threads := by
    induction threads with
    | nil => exact fun a => rfl
    | cons w rest ih =>
      intro a
      rw [List.foldl_cons, ih, total_cons, Nat.add_assoc]
  rw [tasksCount, hfrom, Nat.zero_add]

@[simp] theorem queueSize_enqueue (w : CpuThreadWorker τ) (task : τ) :
    queueSize (w.enqueue task) = queueSize w + 1 := by
  simp [queueSize, CpuThreadWorker.enqueue]

/-- What the loop knows when it comes to worker `i`: no queue was empty, and the first of the
least loaded workers before `i` is recorded with the size of its queue; at the start the first
worker is. -/
structure Recorded (threads : List (CpuThreadWorker τ)) (i best count : Nat) : Prop where
  recorded : ∃ w, threads[best]? = some w ∧ queueSize w = count
  least : ∀ j < i, ∀ w, threads[j]? = some w → count ≤ queueSize w
  first : ∀ j < best, ∀ w, threads[j]? = some w → count < queueSize w
  passed : ∀ j < i, ∀ w, threads[j]? = some w → 0 < queueSize w

theorem recorded_start (w : CpuThreadWorker τ) (rest : List (CpuThreadWorker τ)) :
    Recorded (w :: rest) 0 0 (queueSize w) where
  recorded := ⟨w, rfl, rfl⟩
  least := fun j hj => absurd hj (Nat.not_lt_zero j)
  first := fun j hj => absurd hj (Nat.not_lt_zero j)
  passed := fun j hj => absurd hj (Nat.not_lt_zero j)

section
variable {threads : List (CpuThreadWorker τ)} {i best count : Nat} {w : CpuThreadWorker τ}

/-- A property of the workers before `i` and of worker `i` is one of those before `i + 1`. -/
theorem forall_lt_succ {P : CpuThreadWorker τ → Prop} (hw : threads[i]? = some w) (hP : P w)
    (hbefore : ∀ j < i, ∀ w, threads[j]? = some w → P w) :
    ∀ j < i + 1, ∀ w, threads[j]? = some w → P w := by
  intro j hj w' hw'
  obtain hj | rfl := Nat.lt_succ_iff_lt_or_eq.mp hj
  · exact hbefore j hj w' hw'
  · cases hw.symm.trans hw'
    exact hP

theorem Recorded.keep (h : Recorded threads i best count) (hw : threads[i]? = some w)
    (hpos : 0 < queueSize w) (hle : count ≤ queueSize w) : Recorded threads (i + 1) best count where
  recorded := h.recorded
  least := forall_lt_succ hw hle h.least
  first := h.first
  passed := forall_lt_succ hw hpos h.passed

theorem Recorded.replace (h : Recorded threads i best count) (hw : threads[i]? = some w)
    (hpos : 0 < queueSize w) (hlt : queueSize w < count) :
    Recorded threads (i + 1) i (queueSize w) where
  recorded := ⟨w, hw, rfl⟩
  least := forall_lt_succ hw (Nat.le_refl _) fun j hj w' hw' => hlt.le.trans (h.least j hj w' hw')
  first := fun j hj w' hw' => hlt.trans_le (h.least j hj w' hw')
  passed := forall_lt_succ hw hpos h.passed

/-- Where the loop stops at an empty queue, that worker is the first with the least. -/
theorem Recorded.stop (h : Recorded threads i best count) (hw : threads[i]? = some w)
    (hempty : queueSize w = 0) : FirstLeast queueSize threads i w :=
  ⟨hw, fun _ _ => hempty ▸ Nat.zero_le _, fun j hj y hy => hempty ▸ h.passed j hj y hy⟩

theorem Recorded.done (h : Recorded threads i best count) (hi : threads.length ≤ i) :
    ∃ w, FirstLeast queueSize threads best w := by
  obtain ⟨w, hw, rfl⟩ := h.recorded
  refine ⟨w, hw, fun y hy => ?_, h.first⟩
  obtain ⟨j, hj⟩ := List.mem_iff_getElem?.mp hy
  have hlt : j < threads.length := (List.getElem?_eq_some_iff.mp hj).1
  exact h.least j (by omega) y hj

end

theorem worker_of_drop {threads rest : List (CpuThreadWorker τ)} {i : Nat} {w : CpuThreadWorker τ}
    (hrest : threads.drop i = w :: rest) : threads[i]? = some w ∧ threads.drop (i + 1) = rest := by
  constructor
  · rw [← List.head?_drop, hrest, List.head?_cons]
  · rw [← List.tail_drop, hrest, List.tail_cons]

/-- The loop ends with the first of the least loaded workers. -/
theorem leastLoaded_spec {threads : List (CpuThreadWorker τ)} {i best count : Nat}
    {rest : List (CpuThreadWorker τ)} (hrest : threads.drop i = rest)
    (h : Recorded threads i best count) :
    ∃ w, FirstLeast queueSize threads (leastLoaded i best count rest) w := by
  induction rest generalizing i best count with
  | nil => exact h.done (List.drop_eq_nil_iff.mp hrest)
  | cons w rest ih =>
    obtain ⟨hw, htail⟩ := worker_of_drop hrest
    rw [leastLoaded]
    split
    · next hempty => exact ⟨w, h.stop hw (by simpa [queueSize] using hempty)⟩
    · next hempty =>
      have hpos : 0 < queueSize w := by
        rw [queueSize, List.length_pos_iff]
        simpa using hempty
      split
      · next hlt => exact ih htail (h.replace hw hpos hlt)
      · next hle => exact ih htail (h.keep hw hpos (Nat.not_lt.mp hle))

/-- One push on a pool with workers. -/
theorem push_eq {threads : List (CpuThreadWorker τ)} (hne : threads ≠ []) (task : τ) :
    ∃ i w, FirstLeast queueSize threads i w ∧
      push threads task = (threads.set i (w.enqueue task), none) := by
  obtain ⟨first, rest, rfl⟩ := List.exists_cons_of_ne_nil hne
  obtain ⟨w, hw⟩ := leastLoaded_spec List.drop_zero (recorded_start first rest)
  refine ⟨_, w, hw, ?_⟩
  rw [push, List.modify_eq_set_getElem?, hw.1]
  rfl

/-- One push keeps the sizes level and adds one. -/
theorem push_step {threads : List (CpuThreadWorker τ)} (hne : threads ≠ [])
    (hlevel : Level queueSize threads) (task : τ) :
    (push threads task).1 ≠ [] ∧ Level queueSize (push threads task).1 ∧
      tasksCount (push threads task).1 = tasksCount threads + 1 := by
  obtain ⟨i, w, hw, heq⟩ := push_eq hne task
  rw [heq]
  refine ⟨by simpa using hne, level_set hlevel hw (queueSize_enqueue w task), ?_⟩
  have htotal := total_set queueSize hw.1 (w.enqueue task)
  rw [queueSize_enqueue] at htotal
  simp only [tasksCount_eq_total]
  omega

theorem pushAll_level {threads : List (CpuThreadWorker τ)} (hne : threads ≠ [])
    (hlevel : Level queueSize threads) (tasks : List τ) :
    Level queueSize (pushAll threads tasks) ∧
      tasksCount (pushAll threads tasks) = tasksCount threads + tasks.length := by
  induction tasks generalizing threads with
  | nil => exact ⟨hlevel, rfl⟩
  | cons task tasks ih =>
    obtain ⟨hne', hlevel', hcount⟩ := push_step hne hlevel task
    obtain ⟨hend, hsum⟩ := ih hne' hlevel'
    refine ⟨hend, ?_⟩
    rw [pushAll, List.foldl_cons, ← pushAll, hsum, hcount, List.length_cons]
    omega

/-- A push appends its task to the first of the workers with the shortest queue and leaves the
other workers alone. From sizes that differ by one at most, any pushes lead to such sizes, and
there are as many tasks more as there were pushes. -/
theorem push_balances (threads : List (CpuThreadWorker τ)) (hne : threads ≠ []) :
    (∀ task, ∃ i w, FirstLeast queueSize threads i w ∧
      push threads task = (threads.set i (w.enqueue task), none)) ∧
    (Level queueSize threads → ∀ tasks, Level queueSize (pushAll threads tasks) ∧
      tasksCount (pushAll threads tasks) = tasksCount threads + tasks.length) :=
  ⟨fun task => push_eq hne task, fun hlevel tasks => pushAll_level hne hlevel tasks⟩

/-- Three workers with two, one and one tasks. -/
def threeWorkers : List (CpuThreadWorker Nat) :=
  [{ status := .working, queue := [1, 2] }, { status := .working, queue := [3] },
    { status := .working, queue := [4] }]

theorem push_balances_three :
    (∃ i w, FirstLeast queueSize threeWorkers i w ∧
      push threeWorkers 5 = (threeWorkers.set i (w.enqueue 5), none)) ∧
    Level queueSize (pushAll threeWorkers [5, 6, 7]) ∧
    tasksCount (pushAll threeWorkers [5, 6, 7]) = 7 := by
  have hlevel : Level queueSize threeWorkers := by
    unfold Level threeWorkers
    decide
  have h := push_balances threeWorkers (List.cons_ne_nil _ _)
  exact ⟨h.1 5, h.2 hlevel [5, 6, 7]⟩

section
variable (s : ThreadPool τ) (task : τ)

/-- The pool in a push of the task that has come to a stage. -/
def pushing (stage : PushStage) : ThreadPool τ := { s with call := .pushes [{ task, stage }] }

theorem step_search (stage stage' : PushStage) (h : Push.search s.threads stage = some stage') :
    ThreadPool.step (pushing s task stage) (.pushStep 0) = some (pushing s task stage') := by
  have hstep : ({ task, stage } : Push τ).step s.threads =
      some { threads := s.threads, rest := some { task, stage := stage' } } := by
    cases stage <;> simp_all [Push.step, Push.search]
  simp only [ThreadPool.step, pushing, List.getElem?_cons_zero, Option.bind_some, hstep,
    Option.map_some, ThreadPool.after, Option.toList_none, Multiset.coe_nil, add_zero,
    List.set_cons_zero]

/-- Left alone, a push that has come to worker `i` searches on to the end of the loop. -/
theorem search_runs {rest : List (CpuThreadWorker τ)} (i best count : Nat)
    (hrest : s.threads.drop i = rest) :
    ∃ n, run ThreadPool.step (pushing s task (.probe i best count))
        (List.replicate n (.pushStep 0)) =
      some (pushing s task (.enqueue (leastLoaded i best count rest))) := by
  induction rest generalizing i best count with
  | nil =>
    have hnone : s.threads[i]? = none :=
      List.getElem?_eq_none (List.drop_eq_nil_iff.mp hrest)
    have hprobe := step_search s task (.probe i best count) (.enqueue best)
      (by simp [Push.search, hnone])
    exact ⟨1, run_cons.mpr ⟨_, hprobe, rfl⟩⟩
  | cons w rest ih =>
    obtain ⟨hw, htail⟩ := worker_of_drop hrest
    rw [leastLoaded]
    split
    · next hempty =>
      have hprobe := step_search s task (.probe i best count) (.enqueue i)
        (by simp [Push.search, hw, hempty])
      exact ⟨1, run_cons.mpr ⟨_, hprobe, rfl⟩⟩
    · next hempty =>
      have hprobe := step_search s task (.probe i best count) (.compare i best count)
        (by simp [Push.search, hw, hempty])
      split
      · next hlt =>
        have hcompare := step_search s task (.compare i best count) (.record i)
          (by simpa [Push.search, hw, queueSize] using hlt)
        have hrecord := step_search s task (.record i) (.probe (i + 1) i (queueSize w))
          (by simp [Push.search, hw, queueSize])
        obtain ⟨n, hn⟩ := ih (i + 1) i (queueSize w) htail
        exact ⟨n + 3, run_cons.mpr ⟨_, hprobe, run_cons.mpr ⟨_, hcompare,
          run_cons.mpr ⟨_, hrecord, hn⟩⟩⟩⟩
      · next hle =>
        have hcompare := step_search s task (.compare i best count) (.probe (i + 1) best count)
          (by simpa [Push.search, hw, queueSize] using hle)
        obtain ⟨n, hn⟩ := ih (i + 1) best count htail
        exact ⟨n + 2, run_cons.mpr ⟨_, hprobe, run_cons.mpr ⟨_, hcompare, hn⟩⟩⟩

end

/-- A push of the pool that no other thread gets in between of is this push. -/
theorem push_runs {s : ThreadPool τ} {task : τ} (hcall : s.call = .pushes [])
    (hne : s.threads ≠ []) (hfree : ∀ w ∈ s.threads, w.holdsMutex = false) :
    ∃ n, run ThreadPool.step s (.push task :: List.replicate n (.pushStep 0)) =
      some { s with threads := (push s.threads task).1, pushed := s.pushed + {task} } := by
  obtain ⟨first, rest, hthreads⟩ := List.exists_cons_of_ne_nil hne
  obtain ⟨w, hw, -⟩ := leastLoaded_spec (i := 0) hthreads (hthreads ▸ recorded_start first rest)
  have hmutex : w.holdsMutex = false := hfree w (List.mem_of_getElem? hw)
  have hstart : ThreadPool.step s (.push task) =
      some (pushing { s with pushed := s.pushed + {task} } task
        (.probe 0 0 (queueSize first))) := by
    simp only [ThreadPool.step, hcall, List.nil_append, Push.start, hthreads]
    rfl
  obtain ⟨n, hn⟩ := search_runs { s with pushed := s.pushed + {task} } task 0 0
    (queueSize first) hthreads
  have hlast : ThreadPool.step (pushing { s with pushed := s.pushed + {task} } task
        (.enqueue (leastLoaded 0 0 (queueSize first) (first :: rest)))) (.pushStep 0) =
      some { s with threads := (push s.threads task).1, pushed := s.pushed + {task} } := by
    have hpush : (push s.threads task).1 =
        s.threads.set (leastLoaded 0 0 (queueSize first) (first :: rest)) (w.enqueue task) := by
      rw [hthreads] at hw ⊢
      rw [push, List.modify_eq_set_getElem?, hw]
      rfl
    rw [hpush]
    simp [ThreadPool.step, pushing, Push.step, hw, hmutex, ThreadPool.after, hcall]
  refine ⟨n + 1, run_cons.mpr ⟨_, hstart, ?_⟩⟩
  rw [List.replicate_succ', run_append]
  exact ⟨_, hn, run_cons.mpr ⟨_, hlast, rfl⟩⟩

end RoutineHttp.LoadBalance
