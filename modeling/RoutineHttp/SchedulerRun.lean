import RoutineHttp.PoolConservation

/-! `Scheduler::run` places one never-returning loop for each of its IO threads while the
threads already take their tasks. -/
namespace RoutineHttp.SchedulerRun
open Lib

/-- The IO thread pool, whose tasks are the loops by their numbers, and how many loops have
been pushed. -/
structure IoRun where
  pool : ThreadPool Nat
  placed : Nat

/-- Whose turn it is: the thread in `Scheduler::run`, which also starts the threads of the
workers, or one of the workers. -/
inductive Turn where
  | spawn (status : WorkerStatus)
  | caller
  | worker (i : Nat)

/-- A fresh pool in the call of `ThreadPool::run`. -/
def start (n : Nat) : IoRun := { pool := { call := .starting n }, placed := 0 }

/-- The caller pushes one loop after the other. A worker in its loop does not come back. -/
def step (n : Nat) (s : IoRun) : Turn → Option IoRun
  | .spawn status => (s.pool.step (.spawn status)).map fun pool => { s with pool }
  | .worker i => match s.pool.threads[i]? with
    | none => none
    | some w => match w.stage with
      | .running _ => none
      | _ => (s.pool.step (.worker i)).map fun pool => { s with pool }
  | .caller => match s.pool.call with
    | .pushes [] => if s.placed < n then
        (s.pool.step (.push s.placed)).map fun pool => { pool, placed := s.placed + 1 } else none
    | .pushes _ => (s.pool.step (.pushStep 0)).map fun pool => { s with pool }
    | _ => (s.pool.step .callStep).map fun pool => { s with pool }

/-- The number of loops on a worker. -/
def load (w : CpuThreadWorker Nat) : Nat := (w.running + w.waiting).card

def IoRun.loads (s : IoRun) : List Nat := s.pool.threads.map load

/-- No worker has two loops. -/
def IoRun.Apart (s : IoRun) : Prop := ∀ x ∈ s.loads, x ≤ 1

/-- If a push looks at an empty queue, its worker has not taken a loop from it already. -/
def IoRun.NotTaken (s : IoRun) : Turn → Prop
  | .spawn _ => True
  | .worker _ => True
  | .caller => ∀ p i best count, s.pool.call = .pushes [p] → p.stage = .probe i best count →
      ∀ w, s.pool.threads[i]? = some w → w.queue = [] → w.running = 0

theorem step_spawn {n : Nat} {s t : IoRun} {status : WorkerStatus}
    (h : step n s (.spawn status) = some t) : ∃ k, s.pool.call = .starting (k + 1) ∧
      t.placed = s.placed ∧ t.pool.call = .building s.pool.threads.length k ∧
        t.loads = s.loads ++ [0] := by
  obtain ⟨pool, hpool, rfl⟩ := Option.map_eq_some_iff.mp h
  obtain ⟨k, hc, rfl⟩ := ThreadPool.step_cases hpool
  refine ⟨k, hc, rfl, rfl, ?_⟩
  rw [IoRun.loads, List.map_append]
  rfl

theorem step_worker {n : Nat} {s t : IoRun} {i : Nat} (h : step n s (.worker i) = some t) :
    t.pool.call = s.pool.call ∧ t.placed = s.placed ∧ t.loads = s.loads := by
  simp only [step] at h
  split at h
  · cases h
  · next w hw =>
    have hpool : ∃ pool, s.pool.step (.worker i) = some pool ∧ { s with pool } = t ∧
        ∀ task, w.stage ≠ .running task := by
      split at h
      · cases h
      · next hs =>
        obtain ⟨pool, hpool, ht⟩ := Option.map_eq_some_iff.mp h
        exact ⟨pool, hpool, ht, hs⟩
    obtain ⟨pool, hpool, rfl, hidle⟩ := hpool
    obtain ⟨w₁, w', task, hw₁, hp, rfl⟩ := ThreadPool.step_cases hpool
    cases hw.symm.trans hw₁
    refine ⟨rfl, rfl, ?_⟩
    have hload : load w' = load w := by
      have hnone : task = none := by
        unfold CpuThreadWorker.processWorker at hp
        split at hp
        · cases hp; rfl
        · split at hp <;> cases hp <;> rfl
        · next first hs => exact absurd hs (hidle first)
        · cases hp
      have htasks := (ThreadPool.processWorker_tasks hp).1
      subst hnone
      simpa [load] using congrArg Multiset.card htasks
    exact map_set_of_eq hw hload

/-- Everything the thread in `Scheduler::run` can do. -/
theorem step_caller {n : Nat} {s t : IoRun} (h : step n s .caller = some t) :
    (s.pool.call = .pushes [] ∧ s.placed < n ∧ t.placed = s.placed + 1 ∧
        t.pool.threads = s.pool.threads ∧
        t.pool.call = .pushes [Push.start s.pool.threads s.placed]) ∨
      (∃ p calls r, s.pool.call = .pushes (p :: calls) ∧ p.step s.pool.threads = some r ∧
        t.placed = s.placed ∧ t.pool.threads = r.threads ∧
        t.pool.call = .pushes (r.rest.toList ++ calls)) ∨
      (∀ calls, s.pool.call ≠ .pushes calls) ∧ t.placed = s.placed ∧
        s.pool.callStep = some t.pool := by
  simp only [step] at h
  split at h
  · next hc =>
    split at h
    · next hn =>
      obtain ⟨pool, hpool, rfl⟩ := Option.map_eq_some_iff.mp h
      obtain ⟨calls, hcalls, rfl⟩ := ThreadPool.step_cases hpool
      cases hc.symm.trans hcalls
      exact Or.inl ⟨hc, hn, rfl, rfl, rfl⟩
    · cases h
  · next calls hne hc =>
    obtain ⟨pool, hpool, rfl⟩ := Option.map_eq_some_iff.mp h
    obtain ⟨calls', p, r, hcalls, hp, hr, rfl⟩ := ThreadPool.step_cases hpool
    cases hc.symm.trans hcalls
    cases calls with
    | nil => simp at hp
    | cons first calls =>
      cases hp
      refine Or.inr (Or.inl ⟨p, calls, r, hc, hr, rfl, rfl, ?_⟩)
      cases r.rest <;> rfl
  · next hne hother =>
    obtain ⟨pool, hpool, rfl⟩ := Option.map_eq_some_iff.mp h
    exact Or.inr (Or.inr ⟨hother, rfl, hpool⟩)

/-- What the push in progress has seen: the workers behind it have a loop, and the one it has
chosen has none. -/
def Looking (loads : List Nat) : PushStage → Prop
  | .inline => False
  | .probe i _ _ => ∀ j < i, ∀ x, loads[j]? = some x → x = 1
  | .compare i _ _ => ∀ j ≤ i, ∀ x, loads[j]? = some x → x = 1
  | .record i => ∀ j ≤ i, ∀ x, loads[j]? = some x → x = 1
  | .enqueue best => ∀ x, loads[best]? = some x → x = 0

/-- The loops pushed so far are on different workers, and the push in progress will not
change that. -/
def Spread (n : Nat) (s : IoRun) : Prop :=
  match s.pool.call with
  | .starting k => s.placed = 0 ∧ s.loads.length + k = n ∧ ∀ x ∈ s.loads, x = 0
  | .building _ k => s.placed = 0 ∧ s.loads.length + k = n ∧ ∀ x ∈ s.loads, x = 0
  | .pushes [] => s.Apart ∧ s.loads.sum = s.placed ∧ s.loads.length = n
  | .pushes [p] => s.Apart ∧ s.loads.sum + 1 = s.placed ∧ s.placed ≤ n ∧ s.loads.length = n ∧
      Looking s.loads p.stage
  | _ => False

/-- Two loops are on one worker, or will be once the push in progress is done. -/
def Stacked (s : IoRun) : Prop :=
  ∃ calls, s.pool.call = .pushes calls ∧ ((∃ x ∈ s.loads, 2 ≤ x) ∨
    ∃ p best x, calls = [p] ∧ p.stage = .enqueue best ∧ s.loads[best]? = some x ∧ 1 ≤ x)

theorem not_spread_of_stacked {n : Nat} {s : IoRun} (h : Stacked s) : ¬ Spread n s := by
  intro hs
  obtain ⟨calls, hc, ⟨x, hx, htwo⟩ | ⟨p, best, x, rfl, hstage, hx, hone⟩⟩ := h
  · unfold Spread at hs
    have hle : x ≤ 1 := by
      split at hs
      · exact (hs.2.2 x hx).le.trans (Nat.zero_le 1)
      · exact (hs.2.2 x hx).le.trans (Nat.zero_le 1)
      · exact hs.1 x hx
      · exact hs.1 x hx
      · exact hs.elim
    omega
  · simp only [Spread, hc, hstage, Looking] at hs
    exact absurd (hs.2.2.2.2 x hx) (by omega)

theorem sum_of_all_one {loads : List Nat} (h : ∀ x ∈ loads, x = 1) : loads.sum = loads.length := by
  simpa using List.sum_eq_card_nsmul loads 1 h

/-- A search that goes on keeps to its task: it passes only workers with a loop. -/
theorem looking_search {threads : List (CpuThreadWorker Nat)} {stage stage' : PushStage}
    (hapart : ∀ x ∈ threads.map load, x ≤ 1) (hroom : (threads.map load).sum < threads.length)
    (hlook : Looking (threads.map load) stage)
    (hkept : ∀ i best count, stage = .probe i best count → ∀ w, threads[i]? = some w →
      w.queue = [] → w.running = 0)
    (h : Push.search threads stage = some stage') : Looking (threads.map load) stage' := by
  cases stage with
  | inline => exact hlook.elim
  | enqueue best => simp [Push.search] at h
  | probe i best count =>
    cases hw : threads[i]? with
    | none =>
      have hlen := List.getElem?_eq_none_iff.mp hw
      have hsum : (threads.map load).sum = threads.length := by
        rw [sum_of_all_one, List.length_map]
        intro x hx
        obtain ⟨j, hj, rfl⟩ := List.mem_iff_getElem.mp hx
        exact hlook j (by simp at hj; omega) _ (List.getElem?_eq_getElem hj)
      omega
    | some w =>
      simp only [Push.search, hw, Option.some.injEq] at h
      have hload : (threads.map load)[i]? = some (load w) := by simp [hw]
      subst h
      split
      · next hempty =>
        intro x hx
        have hq := List.isEmpty_iff.mp hempty
        cases hload.symm.trans hx
        simp [load, hkept i best count rfl w hw hq, CpuThreadWorker.waiting, hq]
      · next hne =>
        intro j hj x hx
        obtain hlt | rfl := hj.lt_or_eq
        · exact hlook j hlt x hx
        · cases hload.symm.trans hx
          have hle := hapart _ (List.mem_of_getElem? hload)
          have hpos : 0 < w.queue.length :=
            List.length_pos_of_ne_nil fun hnil => hne (List.isEmpty_iff.mpr hnil)
          have hq : load w = w.running.card + w.queue.length := by
            simp [load, CpuThreadWorker.waiting]
          omega
  | compare i best count =>
    obtain ⟨w, hw, rfl⟩ := Option.map_eq_some_iff.mp h
    split
    · exact hlook
    · exact fun j hj => hlook j (Nat.lt_succ_iff.mp hj)
  | record i =>
    obtain ⟨w, hw, rfl⟩ := Option.map_eq_some_iff.mp h
    exact fun j hj => hlook j (Nat.lt_succ_iff.mp hj)

theorem load_enqueue (w : CpuThreadWorker Nat) (k : Nat) : load (w.enqueue k) = load w + 1 := by
  simp [load, CpuThreadWorker.enqueue, CpuThreadWorker.waiting, CpuThreadWorker.running, add_assoc]

/-- A loop that is enqueued counts for the worker chosen. -/
theorem loads_enqueue {s t : IoRun} {best k : Nat} {w : CpuThreadWorker Nat}
    (hw : s.pool.threads[best]? = some w)
    (hthreads : t.pool.threads = s.pool.threads.set best (w.enqueue k)) :
    s.loads[best]? = some (load w) ∧ t.loads = s.loads.set best (load w + 1) := by
  refine ⟨by simp [IoRun.loads, hw], ?_⟩
  rw [IoRun.loads, hthreads, List.map_set, load_enqueue]
  rfl

/-- The steps of `ThreadPool::run` besides the starts of threads change no load. -/
theorem callStep_run {s t : ThreadPool Nat} (h : s.callStep = some t) :
    ((∀ k, s.call ≠ .starting k) ∧ ∀ i k, s.call ≠ .building i k) ∨
      (s.call = .starting 0 ∧ t = { s with call := .pushes [] }) ∨
      ∃ i k, s.call = .building i k ∧ t.call = .starting k ∧
        t.threads.map load = s.threads.map load := by
  have hcases := ThreadPool.callStep_cases h
  cases hc : s.call with
  | starting k =>
    rw [hc] at hcases
    cases k with
    | zero => exact Or.inr (Or.inl ⟨rfl, hcases⟩)
    | succ k => exact hcases.elim
  | building i k =>
    rw [hc] at hcases
    obtain ⟨w, hw, rfl⟩ := hcases
    exact Or.inr (Or.inr ⟨i, k, rfl, rfl, map_set_of_eq hw rfl⟩)
  | _ => exact Or.inl ⟨fun k hk => (by cases hk), fun i k hk => (by cases hk)⟩

/-- What a step of the push in progress does to the loads. -/
theorem spread_push {n : Nat} {s t : IoRun} {p : Push Nat} {r : PushResult Nat}
    (hs : Spread n s) (hc : s.pool.call = .pushes [p]) (hr : p.step s.pool.threads = some r)
    (hplaced : t.placed = s.placed) (hthreads : t.pool.threads = r.threads)
    (hcall : t.pool.call = .pushes r.rest.toList)
    (hkept : s.NotTaken .caller) : Spread n t := by
  simp only [Spread, hc] at hs
  obtain ⟨hapart, hsum, hle, hlen, hlook⟩ := hs
  obtain ⟨stage, hstage, rfl⟩ | ⟨hstage, -⟩ | ⟨best, w, hstage, hw, -, rfl⟩ := Push.step_cases hr
  · have hloads : t.loads = s.loads := congrArg (List.map load) hthreads
    have hroom : s.loads.sum < s.pool.threads.length := by
      rw [IoRun.loads, List.length_map] at hlen
      omega
    have hnext := looking_search hapart hroom hlook (fun i best count => hkept p i best count hc)
      hstage
    simp only [Spread, hcall, Option.toList_some, IoRun.Apart, hloads, hplaced]
    exact ⟨hapart, hsum, hle, hlen, hnext⟩
  · rw [hstage] at hlook
    exact hlook.elim
  · obtain ⟨hload, hloads⟩ := loads_enqueue hw hthreads
    have hzero : load w = 0 := by
      rw [hstage] at hlook
      exact hlook _ hload
    have htotal : t.loads.sum = s.loads.sum + 1 := by
      have hset := total_set load hw (w.enqueue p.task)
      rw [load_enqueue, hzero] at hset
      rw [IoRun.loads, hthreads]
      exact hset
    simp only [Spread, hcall, Option.toList_none]
    refine ⟨fun x hx => ?_, by omega, by rw [hloads, List.length_set, hlen]⟩
    rw [hloads] at hx
    obtain hx | rfl := List.mem_or_eq_of_mem_set hx
    · exact hapart x hx
    · omega

theorem spread_worker {n : Nat} {s t : IoRun} (hcall : t.pool.call = s.pool.call)
    (hplaced : t.placed = s.placed) (hloads : t.loads = s.loads) (hs : Spread n s) :
    Spread n t := by
  simpa only [Spread, hcall, hplaced, hloads, IoRun.Apart] using hs

theorem spread_step {n : Nat} (s : IoRun) (a : Turn) (t : IoRun) (hs : Spread n s)
    (hkept : s.NotTaken a) (h : step n s a = some t) : Spread n t := by
  cases a with
  | spawn status =>
    obtain ⟨k, hc, hplaced, hcall, hloads⟩ := step_spawn h
    simp only [Spread, hc] at hs
    obtain ⟨hzero, hlen, hall⟩ := hs
    simp only [Spread, hcall, hloads]
    refine ⟨hplaced.trans hzero, ?_, ?_⟩
    · rw [List.length_append, List.length_singleton]
      omega
    · intro x hx
      rw [List.mem_append, List.mem_singleton] at hx
      obtain hx | rfl := hx
      · exact hall x hx
      · rfl
  | worker i =>
    obtain ⟨hcall, hplaced, hloads⟩ := step_worker h
    exact spread_worker hcall hplaced hloads hs
  | caller =>
    obtain ⟨hc, hn, hplaced, hthreads, hcall⟩ | ⟨p, calls, r, hc, hr, hplaced, hthreads, hcall⟩ |
      ⟨hc, hplaced, hpool⟩ := step_caller h
    · simp only [Spread, hc] at hs
      obtain ⟨hapart, hsum, hlen⟩ := hs
      have hloads : t.loads = s.loads := congrArg (List.map load) hthreads
      simp only [Spread, hcall, IoRun.Apart, hloads, hplaced]
      refine ⟨hapart, by omega, by omega, hlen, ?_⟩
      cases hp : s.pool.threads with
      | nil =>
        simp [IoRun.loads, hp] at hlen
        omega
      | cons w threads => exact fun j hj => absurd hj (Nat.not_lt_zero j)
    · cases calls with
      | nil => exact spread_push hs hc hr hplaced hthreads (by simpa using hcall) hkept
      | cons p' calls => simp [Spread, hc] at hs
    · obtain ⟨hnot, hnot'⟩ | ⟨hstart, ht⟩ | ⟨i, k, hbuild, hcall, hloads⟩ := callStep_run hpool
      · unfold Spread at hs
        split at hs
        · next k hk => exact absurd hk (hnot k)
        · next i k hk => exact absurd hk (hnot' i k)
        · next hk => exact absurd hk (hc _)
        · next hk => exact absurd hk (hc _)
        · exact hs.elim
      · simp only [Spread, hstart] at hs
        obtain ⟨hzero, hlen, hall⟩ := hs
        have hloads : t.loads = s.loads := by rw [IoRun.loads, ht]; rfl
        simp only [Spread, ht]
        refine ⟨fun x hx => ?_, ?_, ?_⟩
        · rw [hall x (hloads ▸ hx)]
          exact Nat.zero_le 1
        · rw [hloads, hplaced, hzero]
          exact List.sum_eq_zero hall
        · rw [hloads]
          exact hlen
      · have hsame : t.loads = s.loads := hloads
        simp only [Spread, hbuild] at hs
        simpa only [Spread, hcall, hplaced, hsame] using hs

theorem stacked_worker {s t : IoRun} (hcall : t.pool.call = s.pool.call)
    (hloads : t.loads = s.loads) (hs : Stacked s) : Stacked t := by
  simpa only [Stacked, hcall, hloads] using hs

/-- Looking at a worker that has taken its loop, a push chooses it. -/
theorem stacked_of_taken {n : Nat} {s t : IoRun} (hkept : ¬ s.NotTaken .caller)
    (h : step n s .caller = some t) : Stacked t := by
  simp only [IoRun.NotTaken, not_forall] at hkept
  obtain ⟨p, i, best, count, hc, hstage, w, hw, hq, htaken⟩ := hkept
  obtain ⟨hc', -⟩ | ⟨p', calls, r, hc', hr, hplaced, hthreads, hcall⟩ | ⟨hc', -⟩ := step_caller h
  · simp [hc] at hc'
  · cases hc.symm.trans hc'
    simp only [Push.step, hstage, Push.search, hw, hq, List.isEmpty_nil, if_true, Option.map_some,
      Option.some.injEq] at hr
    subst hr
    refine ⟨_, hcall, Or.inr ⟨_, i, load w, rfl, rfl, ?_, ?_⟩⟩
    · rw [IoRun.loads, hthreads, List.getElem?_map, hw]
      rfl
    · have hpos := Multiset.card_pos.mpr htaken
      rw [load, Multiset.card_add]
      omega
  · exact absurd hc (hc' _)

theorem stacked_push {s t : IoRun} {p : Push Nat} {calls : List (Push Nat)} {r : PushResult Nat}
    (hs : (∃ x ∈ s.loads, 2 ≤ x) ∨ ∃ p' best x, p :: calls = [p'] ∧ p'.stage = .enqueue best ∧
      s.loads[best]? = some x ∧ 1 ≤ x)
    (hr : p.step s.pool.threads = some r) (hthreads : t.pool.threads = r.threads) :
    ∃ x ∈ t.loads, 2 ≤ x := by
  obtain ⟨stage, hstage, rfl⟩ | ⟨hstage, rfl⟩ | ⟨best, w, hstage, hw, -, rfl⟩ := Push.step_cases hr
  · have hloads : t.loads = s.loads := congrArg (List.map load) hthreads
    obtain htwo | ⟨p', best, x, hp, hbest, -⟩ := hs
    · exact hloads ▸ htwo
    · cases hp
      simp [hbest, Push.search] at hstage
  · have hloads : t.loads = s.loads := congrArg (List.map load) hthreads
    obtain htwo | ⟨p', best, x, hp, hbest, -⟩ := hs
    · exact hloads ▸ htwo
    · cases hp
      cases hbest.symm.trans hstage
  · obtain ⟨hload, hloads⟩ := loads_enqueue hw hthreads
    have hnew : load w + 1 ∈ t.loads := by
      rw [hloads]
      exact List.mem_set (List.getElem?_eq_some_iff.mp hload).1 _
    obtain ⟨x, hx, htwo⟩ | ⟨p', best', x, hp, hbest, hx, hone⟩ := hs
    · -- the worker with two loops is the one chosen, or keeps what it has
      obtain ⟨j, hj⟩ := List.mem_iff_getElem?.mp hx
      by_cases hbj : best = j
      · subst hbj
        cases hload.symm.trans hj
        exact ⟨_, hnew, by omega⟩
      · refine ⟨x, List.mem_of_getElem? (i := j) ?_, htwo⟩
        rw [hloads, List.getElem?_set_ne hbj, hj]
    · cases hp
      cases hbest.symm.trans hstage
      cases hload.symm.trans hx
      exact ⟨_, hnew, by omega⟩

theorem stacked_step {n : Nat} (s : IoRun) (a : Turn) (t : IoRun) (hs : Stacked s)
    (h : step n s a = some t) : Stacked t := by
  cases a with
  | spawn status =>
    obtain ⟨k, hc, -⟩ := step_spawn h
    obtain ⟨calls, hc', -⟩ := hs
    cases hc.symm.trans hc'
  | worker i =>
    obtain ⟨hcall, -, hloads⟩ := step_worker h
    exact stacked_worker hcall hloads hs
  | caller =>
    obtain ⟨calls, hc, hs⟩ := hs
    obtain ⟨hc', -, -, hthreads, hcall⟩ | ⟨p, calls', r, hc', hr, -, hthreads, hcall⟩ |
      ⟨hc', -, -⟩ := step_caller h
    · cases hc.symm.trans hc'
      have hloads : t.loads = s.loads := congrArg (List.map load) hthreads
      obtain htwo | ⟨p, best, x, hp, -⟩ := hs
      · exact ⟨_, hcall, Or.inl (hloads ▸ htwo)⟩
      · cases hp
    · cases hc.symm.trans hc'
      exact ⟨_, hcall, Or.inl (stacked_push hs hr hthreads)⟩
    · exact absurd hc (hc' _)

/-- While the IO threads start, the loops pushed are on different workers exactly when no push
has looked at a worker that had taken its loop already. -/
theorem loops_apart_iff {n : Nat} {turns : List Turn} {t : IoRun}
    (h : run (step n) (start n) turns = some t) (hdone : t.pool.Quiet) :
    t.Apart ↔ Along (step n) IoRun.NotTaken (start n) turns := by
  have hstart : Spread n (start n) := ⟨rfl, Nat.zero_add n, fun x hx => by cases hx⟩
  have hspoil : ∀ s a t, Spread n s → ¬ s.NotTaken a → step n s a = some t → Stacked t := by
    intro s a t _ hkept hst
    cases a with
    | spawn status => exact absurd trivial hkept
    | worker i => exact absurd trivial hkept
    | caller => exact stacked_of_taken hkept hst
  have hiff := run_iff_along spread_step hspoil stacked_step (fun s => not_spread_of_stacked)
    hstart h
  have heither := run_kept_or_spoiled spread_step hspoil stacked_step hstart h
  rw [← hiff]
  constructor
  · intro hapart
    refine heither.resolve_right fun ⟨calls, hc, hs⟩ => ?_
    cases hc.symm.trans hdone
    obtain ⟨x, hx, htwo⟩ | ⟨p, best, x, hp, -⟩ := hs
    · exact absurd (hapart x hx) (by omega)
    · cases hp
  · intro hs
    simp only [Spread, show t.pool.call = .pushes [] from hdone] at hs
    exact hs.1

/-- Two workers, of which the first takes its loop before the second loop is pushed. -/
def takenBetween : List Turn :=
  [.spawn .working, .caller, .spawn .working, .caller, .caller, .caller, .caller, .caller,
    .worker 0, .worker 0, .caller, .caller, .caller]

/-- The second loop is queued behind the first one, and the second worker has none. -/
theorem loop_behind_loop : ∃ t, run (step 2) (start 2) takenBetween = some t ∧ t.placed = 2 ∧
    t.pool.Quiet ∧ t.loads = [2, 0] ∧ ¬ t.Apart := by
  refine ⟨_, rfl, rfl, rfl, rfl, fun h => ?_⟩
  exact absurd (h 2 (List.mem_cons_self ..)) (by decide)

/-- Two workers that take their loops late. -/
def takenAfter : List Turn :=
  [.spawn .working, .caller, .spawn .working, .caller, .caller, .caller, .caller, .caller,
    .caller, .caller, .caller, .caller, .caller, .worker 0, .worker 0]

theorem loops_apart_iff_takenAfter : ∃ t, run (step 2) (start 2) takenAfter = some t ∧
    t.placed = 2 ∧ t.loads = [1, 1] ∧ Along (step 2) IoRun.NotTaken (start 2) takenAfter := by
  obtain ⟨t, ht⟩ : ∃ t, run (step 2) (start 2) takenAfter = some t := ⟨_, rfl⟩
  have hquiet : t.pool.Quiet := by
    cases ht
    rfl
  have hloads : t.loads = [1, 1] := by
    cases ht
    rfl
  have hapart : t.Apart := by
    rw [IoRun.Apart, hloads]
    decide
  refine ⟨t, ht, ?_, hloads, (loops_apart_iff ht hquiet).mp hapart⟩
  cases ht
  rfl

end RoutineHttp.SchedulerRun
