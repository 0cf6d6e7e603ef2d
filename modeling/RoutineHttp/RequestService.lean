import RoutineHttp.Segmentation

/-! The request loop as a service over messages. Where the segments keep the requests apart,
all that a session does with the bytes is what it does with the requests one by one. -/
namespace RoutineHttp.RequestService
open HttpSession Segmentation Lib

/-- One request: it is delivered, its task runs, and the loop goes on unless that ends it. -/
def serveOne (s : Scheduler) (w : WireRequest) : List Event × Option Next :=
  match deliver s w with
  | (events, .error .waiting) => (events, some .waiting)
  | (events, .error .notSupported) => (events ++ [.closed], some .stopped)
  | (events, .error (.thrown fault)) => (events, some (.thrown fault))
  | (events, .ok request) =>
    let ran := task s request []
    (events ++ .queued w.rawHttp w.body :: ran.1, match ran.2 with
      | .again _ => none
      | ended => some ended)

/-- The requests one after the other, up to the one that ends the loop. -/
def serve (s : Scheduler) : List WireRequest → List Event × Next
  | [] => ([], .waiting)
  | w :: ws => match serveOne s w with
    | (events, some ended) => (events, ended)
    | (events, none) => (events ++ (serve s ws).1, (serve s ws).2)

/-- The first request in the bytes is not complete: the end of its head has not arrived. -/
def Incomplete (later : Str) : Prop := later.dropInfix? headEnd = none

/-- The loop ends with the requests, so that nothing behind them is read. -/
def Ends (s : Scheduler) (ws : List WireRequest) : Prop := (serve s ws).2 ≠ .waiting

theorem runProcess_of_again {s : Scheduler} {segments rest : List Str} {events : List Event}
    (h : processOnce s segments = (events, .again rest)) :
    runProcess s segments = (events ++ (runProcess s rest).1, (runProcess s rest).2) := by
  rw [runProcess]
  split
  · next events' rest' heq =>
    rw [h] at heq
    cases heq
    rfl
  · next hne => exact absurd h (hne events rest)

theorem runProcess_of_ended {s : Scheduler} {segments : List Str}
    (h : ∀ rest, (processOnce s segments).2 ≠ .again rest) :
    runProcess s segments = processOnce s segments := by
  rw [runProcess]
  split
  · next events rest heq => exact absurd (by rw [heq]) (h rest)
  · rfl

/-- A task does the same whatever is left to read, and hands that on. -/
theorem task_rest (s : Scheduler) (request : Request) (rest : List Str) :
    task s request rest = ((task s request []).1, match (task s request []).2 with
      | .again _ => .again rest
      | ended => ended) := by
  unfold task
  dsimp only
  cases (respond s request).2.2.prepareResponse s.now s.headerOrder with
  | error fault => rfl
  | ok sent => cases asksClose (respond s request).2.1.headers <;> rfl

/-- Delivery fails only for want of a storage. -/
theorem deliver_error {s : Scheduler} {w : WireRequest} {ended : ReadEnd}
    (h : (deliver s w).2 = .error ended) : ended = .thrown .undefinedBehaviour := by
  unfold deliver at h
  split at h
  · dsimp only at h
    split at h
    · exact (Except.error.inj h).symm
    · cases h
  · cases h

theorem serveOne_ended {s : Scheduler} {w : WireRequest} {ended : Next}
    (h : (serveOne s w).2 = some ended) (rest : List Str) : ended ≠ .again rest := by
  rintro rfl
  unfold serveOne at h
  split at h
  · cases h
  · cases h
  · cases h
  · next events request hd =>
    dsimp only at h
    cases hran : (task s request []).2 <;> simp [hran] at h

/-- A round that reads a request as if it had come alone serves it. -/
theorem processOnce_serves {s : Scheduler} {w : WireRequest} {segments rest : List Str}
    (hread : doReadHeaders s segments = ((deliver s w).1, (deliver s w).2.map fun request =>
      ⟨w.rawHttp, w.body, request, rest⟩)) :
    processOnce s segments = ((serveOne s w).1, match (serveOne s w).2 with
      | none => .again rest
      | some ended => ended) := by
  rw [processOnce, hread, serveOne]
  cases hd : deliver s w with
  | mk events result =>
    cases result with
    | error ended =>
      obtain rfl := deliver_error (s := s) (w := w) (by rw [hd])
      rfl
    | ok request =>
      simp only [Except.map]
      rw [task_rest s request rest]
      cases (task s request []).2 <;> rfl

/-- Without a complete head the session waits. -/
theorem runProcess_incomplete {s : Scheduler} {segments : List Str}
    (h : Incomplete segments.flatten) : runProcess s segments = ([], .waiting) := by
  have hc : collectUntil headEnd [] segments = none := by
    cases hc : collectUntil headEnd [] segments with
    | none => rfl
    | some found =>
      obtain ⟨used, hsplit, hread, ⟨cut, hcut, -⟩, -⟩ := collectUntil_eq_some hc
      have hlater := dropInfix?_append hcut found.2.2.flatten
      rw [hread, List.nil_append, ← List.flatten_append, ← hsplit, h] at hlater
      cases hlater
  have hwaits : processOnce s segments = ([], .waiting) := by
    rw [processOnce, doReadHeaders, hc]
  rw [runProcess_of_ended fun rest => by rw [hwaits]; exact Next.noConfusion, hwaits]

/-- With requests that arrive apart the session does what the service does, and where the
service waits for more it goes on with what is behind them. -/
theorem runProcess_bytes (s : Scheduler) (ws : List WireRequest) {segments : List Str} {later : Str}
    (hbytes : segments.flatten = bytes ws ++ later) (harrives : ArrivesApart segments ws) :
    runProcess s segments = serve s ws ∨
    ((serve s ws).2 = .waiting ∧ ∃ rest, rest.flatten = later ∧ runProcess s segments =
      ((serve s ws).1 ++ (runProcess s rest).1, (runProcess s rest).2)) := by
  induction ws generalizing segments with
  | nil => exact Or.inr ⟨rfl, segments, hbytes, rfl⟩
  | cons w ws ih =>
    have hsplit : segments.flatten = w.text ++ (bytes ws ++ later) := by
      rw [hbytes, bytes, List.flatMap_cons, List.append_assoc]
      rfl
    obtain ⟨rest, hrest, hbound, hread⟩ := doReadHeaders_within (s := s) hsplit
      (harrives [] w ws rfl)
    have hround := processOnce_serves hread
    cases hone : serveOne s w with
    | mk events next =>
      rw [hone] at hround
      cases next with
      | some ended =>
        have hended := serveOne_ended (s := s) (w := w) (by rw [hone])
        refine Or.inl ?_
        rw [runProcess_of_ended fun rest' => by rw [hround]; exact hended rest', hround, serve, hone]
      | none =>
        have hserve : serve s (w :: ws) = (events ++ (serve s ws).1, (serve s ws).2) := by
          rw [serve, hone]
        rw [runProcess_of_again hround, hserve]
        obtain hran | ⟨hwaits, rest', hrest', hran⟩ :=
          ih hrest ((arrivesApart_cons hbound).mp harrives).2
        · exact Or.inl (by rw [hran])
        · exact Or.inr ⟨hwaits, rest', hrest', by rw [hran, List.append_assoc]⟩

end RoutineHttp.RequestService
