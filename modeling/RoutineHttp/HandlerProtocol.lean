import RoutineHttp.Segmentation

/-! The two-phase protocol of a handler, and the calls a session makes for one request. -/
namespace RoutineHttp.HandlerProtocol
open HttpSession Segmentation Lib

/-- Asked again and again, the handler answers with nothing `k` times and then with `r`. -/
def Answers (h : RequestHandler) (r : Response) : Nat → Nat → Request → Prop
  | calls, 0, request => (h.processRequest calls request).2 = some r
  | calls, k + 1, request => (h.processRequest calls request).2 = none ∧
      Answers h r (calls + 1) k (h.processRequest calls request).1

/-- What the protocol demands for a request: one preparation, then either its answer, or one
turn of the queue for every answer of the second phase, the last of which is sent. -/
def protocol (w : WireRequest) (k : Nat) (r : Response) : Option Response → List Event
  | some p => [.prepared (some p), .sent p]
  | none => .prepared none ::
      (List.replicate k [.queued w.rawHttp w.body, .processed none]).flatten ++
      [.queued w.rawHttp w.body, .processed (some r), .sent r]

def closing (w : WireRequest) : List Event :=
  if asksClose w.request.headers then [Event.closed] else []

theorem doReadHeaders_no_length {s : Scheduler} {w : WireRequest} {segments : List Str}
    {later : Str} (hbytes : segments.flatten = w.text ++ later)
    (hl : hasLength w.request.headers = false) :
    ∃ read, doReadHeaders s segments = ([], .ok read) := by
  rw [WireRequest.text, WireRequest.head, List.append_assoc] at hbytes
  obtain ⟨used, rest, surplus, rfl, -, -, hc, -⟩ := collectUntil_head w.first hbytes
  rw [doReadHeaders_eq hc, hl]
  exact ⟨_, rfl⟩

theorem doReadHeaders_events {s : Scheduler} {w : WireRequest} {segments : List Str} {later : Str}
    (hbytes : segments.flatten = w.text ++ later) (hl : hasLength w.request.headers = true) :
    (doReadHeaders s segments).1 = (doPrepareBody s w.request).1 := by
  rw [WireRequest.text, WireRequest.head, List.append_assoc] at hbytes
  obtain ⟨used, rest, surplus, rfl, -, -, hc, -⟩ := collectUntil_head w.first hbytes
  rw [doReadHeaders_eq hc, hl]
  rfl

/-- The events of a round that reads a request with a length: those of its preparation, and
when the read ends well, the queueing and what the task does. -/
theorem processOnce_events {s : Scheduler} {w : WireRequest} {segments : List Str} {later : Str}
    (hbytes : segments.flatten = w.text ++ later) (hl : hasLength w.request.headers = true) :
    (∃ ended, (processOnce s segments).1 = (doPrepareBody s w.request).1 ++ ended ∧
      (ended = [] ∨ ended = [.closed])) ∨
    ∃ read, (doReadHeaders s segments).2 = .ok read ∧
      (processOnce s segments).1 = (doPrepareBody s w.request).1 ++
        .queued read.rawHttp read.body :: (task s read.request read.rest).1 := by
  rw [← doReadHeaders_events hbytes hl]
  cases hd : (doReadHeaders s segments).2 with
  | ok read =>
    rw [processOnce_of_ok hd]
    exact Or.inr ⟨read, rfl, rfl⟩
  | error ended =>
    left
    cases hd' : doReadHeaders s segments with
    | mk events result =>
      rw [hd'] at hd
      cases hd
      rw [processOnce, hd']
      cases ended with
      | waiting => exact ⟨[], (List.append_nil events).symm, Or.inl rfl⟩
      | notSupported => exact ⟨[.closed], rfl, Or.inr rfl⟩
      | thrown fault => exact ⟨[], (List.append_nil events).symm, Or.inl rfl⟩

theorem respond_of_route {s : Scheduler} {request routed : Request} {h : RequestHandler}
    (hroute : s.routeRequest request = (some h, routed)) : respond s request =
      ([.processed (h.processRequest 0 routed).2], (h.processRequest 0 routed).1,
        (h.processRequest 0 routed).2.getD (noResponse (h.processRequest 0 routed).1.path)) := by
  rw [respond, hroute]

/-- A task queues nothing: after an answer with nothing it sends what it has. -/
theorem task_events_none {s : Scheduler} {request routed : Request} (rest : List Str)
    {h : RequestHandler} (hroute : s.routeRequest request = (some h, routed))
    (hnone : (h.processRequest 0 routed).2 = none) (rawHttp body : Str) (others : List Event) :
    (task s request rest).1 ≠ .processed none :: .queued rawHttp body :: others := by
  unfold task
  rw [respond_of_route hroute, hnone]
  dsimp only
  split
  · simp
  · split <;> simp

theorem task_events_some {s : Scheduler} {request routed : Request} (rest : List Str)
    {h : RequestHandler} {r : Response} (hroute : s.routeRequest request = (some h, routed))
    (hsome : (h.processRequest 0 routed).2 = some r) (ended : List Event)
    (hended : ended = if asksClose request.headers then [Event.closed] else []) :
    (task s request rest).1 = .processed (some r) :: .sent r :: ended ↔
      ∃ text, r.bodyText = .ok text := by
  have hheaders := (respond_head s request).2.2.2
  rw [← Response.prepareResponse_ok_iff _ s.now s.headerOrder]
  unfold task
  rw [respond_of_route hroute] at hheaders ⊢
  dsimp only at hheaders ⊢
  rw [hheaders, hsome, Option.getD_some, hended]
  cases r.prepareResponse s.now s.headerOrder with
  | error fault => simp
  | ok sent => cases asksClose request.headers <;> simp

theorem doPrepareBody_of_route {s : Scheduler} {request routed : Request} {h : RequestHandler}
    (hroute : s.routeRequest request = (some h, routed)) : doPrepareBody s request =
      ([.prepared (h.prepareRequest routed).2], (h.prepareRequest routed).1) := by
  rw [doPrepareBody, hroute]

/-- What has been read within the request's own bytes is what was delivered for it. -/
theorem read_within {s : Scheduler} {w : WireRequest} {segments : List Str} {later : Str}
    (hbytes : segments.flatten = w.text ++ later) (hends : EndsWithin segments 0 w)
    {read : ReadRequest} (hread : (doReadHeaders s segments).2 = .ok read) :
    read.rawHttp = w.rawHttp ∧ read.body = w.body ∧ (deliver s w).2 = .ok read.request := by
  obtain ⟨rest, -, -, heq⟩ := doReadHeaders_within (s := s) hbytes hends
  rw [heq] at hread
  obtain ⟨request, hdeliver, rfl⟩ := except_map_ok hread
  exact ⟨rfl, rfl, hdeliver⟩

theorem protocol_none (w : WireRequest) (k : Nat) (r : Response) : ∃ others,
    protocol w k r none = .prepared none :: .queued w.rawHttp w.body :: others := by
  cases k with
  | zero => exact ⟨_, rfl⟩
  | succ k => exact ⟨_, rfl⟩

/-- A demanded further turn of the queue shows in the events right after the first one. -/
theorem protocol_succ (w : WireRequest) (k : Nat) (r : Response) : ∃ others,
    protocol w (k + 1) r none = .prepared none :: .queued w.rawHttp w.body :: .processed none ::
      .queued w.rawHttp w.body :: others := by
  cases k with
  | zero => exact ⟨_, rfl⟩
  | succ k => exact ⟨_, rfl⟩

/-- The task's part of the protocol: it is met when the handler answers at once with a
response that has a text. -/
theorem protocol_task_iff {s : Scheduler} {w : WireRequest} {request : Request} {rest : List Str}
    {h : RequestHandler} {k : Nat} {r : Response} (hdeliver : (deliver s w).2 = .ok request)
    (hfound : (s.routeRequest w.request).1 = some h)
    (hanswers : Answers h r 0 k (s.routeRequest request).2) :
    .prepared none :: .queued w.rawHttp w.body :: (task s request rest).1 =
      protocol w k r none ++ closing w ↔ k = 0 ∧ ∃ text, r.bodyText = .ok text := by
  have hhead := deliver_head hdeliver
  have hroute : s.routeRequest request = (some h, (s.routeRequest request).2) := by
    rw [← hfound, ← Scheduler.routeRequest_path hhead.2.1]
  cases k with
  | zero =>
    have htask := task_events_some rest hroute hanswers (closing w)
      (by rw [closing, hhead.2.2.2])
    simp only [true_and, ← htask]
    simp [protocol]
  | succ k =>
    obtain ⟨others, hprotocol⟩ := protocol_succ w k r
    have htask := task_events_none rest hroute hanswers.1 w.rawHttp w.body
      (others ++ closing w)
    rw [hprotocol]
    simpa using htask

/-- Without a length the handler is not asked to prepare anything. -/
theorem hasLength_of_protocol {s : Scheduler} {w : WireRequest} {k : Nat} {r : Response}
    {prepared : Option Response} {segments : List Str} {later : Str}
    (hbytes : segments.flatten = w.text ++ later)
    (hevents : (processOnce s segments).1 = protocol w k r prepared ++ closing w) :
    hasLength w.request.headers = true := by
  by_contra hl
  obtain ⟨read, hread⟩ := doReadHeaders_no_length (s := s) hbytes (Bool.not_eq_true _ ▸ hl)
  have hok : (doReadHeaders s segments).2 = .ok read := by rw [hread]
  rw [processOnce_of_ok hok, hread] at hevents
  cases prepared <;> simp [protocol] at hevents

/-- A handler with an answer for each phase. -/
def twoAnswers (ready : Option Response) (answer : Response) : RequestHandler where
  prepareRequest := fun request => ((defaultPrepare request).1, ready)
  processRequest := fun _ request => (request, some answer)
  prepare_head := defaultPrepare_head
  process_head := fun _ _ => ⟨rfl, rfl, rfl, rfl⟩

def serving (h : RequestHandler) : Scheduler :=
  { noRouter with
    router := some (RouteHandler.addHandler (IterationOrder.stored _) {} "/a".toList h).1 }

def plainText (text : String) : Response := .ofText .ok {} text.toList

def postRequest : WireRequest where
  front := "POST /a HTTP/1.1\r\nContent-Length: 2".toList
  body := "hi".toList
  request := { method := .post, path := "a".toList, version := .http11,
               headers := Headers.insert {} "content-length".toList "2".toList }
  first := by decide
  parsed := rfl
  framed := show IsDecimal "2".toList 2 ∧ 2 < sizeLimit from
    ⟨⟨by decide, List.forall_mem_singleton.mpr rfl, rfl⟩, by decide⟩

end RoutineHttp.HandlerProtocol
