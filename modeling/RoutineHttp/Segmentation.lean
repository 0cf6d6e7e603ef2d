import RoutineHttp.HttpSession

/-! The request stream and its segmentation: which requests a session hands to processing
when the bytes of well-formed requests arrive in whatever segments. -/
namespace RoutineHttp.Segmentation
open HttpSession Lib

/-- A well-formed request on the wire: a head up to its first empty line, which the
constructor accepts, and as many body bytes as the length in it says. -/
structure WireRequest where
  front : Str
  body : Str
  request : Request
  first : (front ++ headEnd).dropInfix? headEnd = some (front, [])
  parsed : Request.ofRaw (front ++ crlf) = .ok request
  framed : match request.headers.headers.lookup Header.contentLength.name with
    | some value => IsDecimal value body.length ∧ body.length < sizeLimit
    | none => body = [] ∧ isChunked request.headers = false

namespace WireRequest

def head (w : WireRequest) : Str := w.front ++ headEnd

def text (w : WireRequest) : Str := w.head ++ w.body

/-- The part of the head the constructor gets. -/
def rawHttp (w : WireRequest) : Str := w.front ++ crlf

theorem length_head (w : WireRequest) : w.head.length = w.rawHttp.length + 2 := by
  simp [head, rawHttp, headEnd, crlf, lineEnd]

theorem length_text (w : WireRequest) : w.text.length = w.head.length + w.body.length := by
  rw [text, List.length_append]

theorem take_head (w : WireRequest) (surplus : Str) :
    (w.head ++ surplus).take (w.head.length - 2) = w.rawHttp := by
  have hhead : w.head = w.rawHttp ++ crlf := by simp [head, rawHttp, headEnd, crlf]
  rw [length_head, Nat.add_sub_cancel, hhead, List.append_assoc, List.take_left]

theorem isChunked_eq_false (w : WireRequest) : isChunked w.request.headers = false := by
  have hframed := w.framed
  cases hl : w.request.headers.headers.lookup Header.contentLength.name with
  | none =>
    rw [hl] at hframed
    exact hframed.2
  | some value =>
    have hmem : Header.contentLength.name ∈ w.request.headers.headers :=
      mem_iff_exists_lookup.mpr ⟨_, hl⟩
    simp [isChunked, hasLength, Headers.contains, hmem]

theorem contentLength_eq (w : WireRequest) (h : hasLength w.request.headers = true) :
    contentLength w.request.headers = .ok w.body.length := by
  have hframed := w.framed
  obtain ⟨value, hl⟩ := mem_iff_exists_lookup.mp (of_decide_eq_true h)
  rw [hl] at hframed
  have hget := Headers.get_eq_ok_iff.mpr hl
  simp only [contentLength, hget, bind, Except.bind, stoull_of_isDecimal hframed.1 hframed.2]

theorem body_eq_nil (w : WireRequest) (h : hasLength w.request.headers = false) : w.body = [] := by
  have hframed := w.framed
  rw [AList.lookup_eq_none.mpr (of_decide_eq_false h)] at hframed
  exact hframed.1

end WireRequest

def bytes (ws : List WireRequest) : Str := ws.flatMap WireRequest.text

/-- What the calls on the way to the queue make of a request: its preparation and its body. -/
def deliver (s : Scheduler) (w : WireRequest) : List Event × Except ReadEnd Request :=
  if hasLength w.request.headers then
    let prepared := doPrepareBody s w.request
    (prepared.1, match prepared.2.body with
      | none => .error (.thrown .undefinedBehaviour)
      | some storage => .ok { prepared.2 with body := some (storage.write s.fromString w.body) })
  else ([], .ok w.request)

theorem doPrepareBody_head (s : Scheduler) (request : Request) :
    (doPrepareBody s request).2.SameHead request := by
  have hrouted := s.routeRequest_head request
  unfold doPrepareBody
  cases hr : s.routeRequest request with
  | mk found routed =>
    rw [hr] at hrouted
    cases found with
    | none => exact hrouted
    | some handler => exact (handler.prepare_head routed).trans hrouted

theorem deliver_head {s : Scheduler} {w : WireRequest} {request : Request}
    (h : (deliver s w).2 = .ok request) : request.SameHead w.request := by
  unfold deliver at h
  split at h
  · have hhead := doPrepareBody_head s w.request
    dsimp only at h
    split at h
    · cases h
    · cases h
      exact hhead
  · cases h
    exact ⟨rfl, rfl, rfl, rfl⟩

/-- The reading of a head, whatever came with it. -/
theorem doReadHeaders_eq {s : Scheduler} {w : WireRequest} {segments rest : List Str}
    {surplus : Str}
    (hc : collectUntil headEnd [] segments = some (w.head.length, w.head ++ surplus, rest)) :
    doReadHeaders s segments = if hasLength w.request.headers then
      ((doPrepareBody s w.request).1, (doReadBody s.fromString w.request.headers
        (doPrepareBody s w.request).2.body surplus rest).map fun read =>
          ⟨w.rawHttp, read.1, { (doPrepareBody s w.request).2 with body := some read.2.1 }, read.2.2⟩)
      else ([], .ok ⟨w.rawHttp, [], w.request, rest⟩) := by
  have hheaders := (doPrepareBody_head s w.request).2.2.2
  rw [doReadHeaders, hc]
  simp only [w.take_head, List.drop_left, WireRequest.rawHttp, w.parsed, w.isChunked_eq_false,
    Bool.false_eq_true, if_false, hheaders]

/-- A boundary of the segments between the end of the head and the end of the request. -/
def EndsWithin (segments : List Str) (start : Nat) (w : WireRequest) : Prop :=
  ∃ n, Boundary segments n ∧ start + w.head.length ≤ n ∧ n ≤ start + w.text.length

/-- With such a boundary the request is read as if it had come alone, and what follows is
left with its own boundaries. -/
theorem doReadHeaders_within {s : Scheduler} {w : WireRequest} {segments : List Str} {later : Str}
    (hbytes : segments.flatten = w.text ++ later) (hends : EndsWithin segments 0 w) :
    ∃ rest, rest.flatten = later ∧
      (∀ m, 0 < m → (Boundary segments (w.text.length + m) ↔ Boundary rest m)) ∧
      doReadHeaders s segments = ((deliver s w).1, (deliver s w).2.map fun request =>
        ⟨w.rawHttp, w.body, request, rest⟩) := by
  obtain ⟨n, hn, hhead, htext⟩ := hends
  rw [WireRequest.text, WireRequest.head, List.append_assoc] at hbytes
  obtain ⟨used, rest, surplus, rfl, hused, htail, hc, hmin⟩ := collectUntil_head w.first hbytes
  have hle : surplus.length ≤ w.body.length := by
    have := hmin n hn (by simpa [WireRequest.head] using hhead)
    have hlen := w.length_text
    simp only [WireRequest.head, List.length_append] at this hlen
    omega
  obtain ⟨missing, hmissing⟩ : surplus <+: w.body :=
    List.prefix_of_prefix_length_le ⟨rest.flatten, htail⟩ ⟨later, rfl⟩ hle
  rw [← hmissing, List.append_assoc, List.append_cancel_left_eq] at htail
  obtain ⟨rest', hgot, hrest'⟩ := collectExactly_prefix htail
  have hbound := (collectExactly_eq_some hgot).2.2.2
  have htextlen : w.text.length = used.flatten.length + missing.length := by
    rw [w.length_text, ← hmissing, hused, WireRequest.head]
    simp [Nat.add_assoc]
  refine ⟨rest', hrest', fun m hm => ?_, ?_⟩
  · rw [htextlen, Nat.add_assoc, boundary_append (by omega), hbound m hm]
  rw [doReadHeaders_eq hc, deliver]
  cases hl : hasLength w.request.headers with
  | false =>
    have hnil := w.body_eq_nil hl
    rw [hnil] at hmissing
    obtain ⟨rfl, rfl⟩ := List.append_eq_nil_iff.mp hmissing
    rw [List.length_nil, collectExactly_zero] at hgot
    cases hgot
    simp only [Bool.false_eq_true, if_false, hnil]
    rfl
  | true =>
    have hlength := w.contentLength_eq hl
    rw [← hmissing, List.length_append] at hlength
    simp only [if_true, doReadBody_exact hlength hgot, hmissing]
    cases (doPrepareBody s w.request).2.body <;> rfl

/-- Without one, bytes of a later request are taken for the body, or lost. -/
theorem doReadHeaders_beyond {s : Scheduler} {w : WireRequest} {segments : List Str} {later : Str}
    (hbytes : segments.flatten = w.text ++ later) (hends : ¬ EndsWithin segments 0 w) {read}
    (hread : (doReadHeaders s segments).2 = .ok read) :
    if hasLength w.request.headers then read.body ≠ w.body
    else read.rest.flatten.length < later.length := by
  rw [WireRequest.text, WireRequest.head, List.append_assoc] at hbytes
  obtain ⟨used, rest, surplus, rfl, hused, htail, hc, -⟩ := collectUntil_head w.first hbytes
  have hlt : w.body.length < surplus.length := by
    by_contra hle
    have hlen := w.length_text
    refine hends ⟨used.flatten.length, ⟨used, rest, rfl, rfl⟩, ?_, ?_⟩ <;>
      simp only [hused, WireRequest.head, List.length_append] at hlen ⊢ <;> omega
  rw [doReadHeaders_eq hc] at hread
  split
  · next hl =>
    rw [if_pos hl] at hread
    obtain ⟨⟨body, storage, rest'⟩, hbody, rfl⟩ := except_map_ok hread
    obtain ⟨n, got, -, -, rfl⟩ := doReadBody_ok hbody
    intro heq
    have hlen := congrArg List.length heq
    rw [List.length_append] at hlen
    omega
  · next hl =>
    rw [if_neg hl] at hread
    cases hread
    have hlen := congrArg List.length htail
    simp only [List.length_append] at hlen
    change rest.flatten.length < later.length
    omega

/-- The requests handed to processing: the text of the head and the bytes of the body. -/
def handed (events : List Event) : List (Str × Str) :=
  events.filterMap fun event => match event with
    | .queued rawHttp body => some (rawHttp, body)
    | _ => none

@[simp] theorem handed_append (a b : List Event) : handed (a ++ b) = handed a ++ handed b :=
  List.filterMap_append

theorem handed_doReadHeaders (s : Scheduler) (segments : List Str) :
    handed (doReadHeaders s segments).1 = [] := by
  have hprepare : ∀ request, handed (doPrepareBody s request).1 = [] := by
    intro request
    unfold doPrepareBody
    split <;> rfl
  unfold doReadHeaders
  split
  · rfl
  · dsimp only
    split
    · rfl
    · split
      · rfl
      · split
        · exact hprepare _
        · rfl

theorem handed_task (s : Scheduler) (request : Request) (rest : List Str) :
    handed (task s request rest).1 = [] := by
  have hrespond : handed (respond s request).1 = [] := by
    unfold respond
    split <;> rfl
  unfold task
  dsimp only
  split
  · exact hrespond
  · split
    · rw [handed_append, hrespond]
      rfl
    · rw [handed_append, hrespond]
      rfl

theorem handed_processOnce_ok {s : Scheduler} {segments : List Str} {read : ReadRequest}
    (h : (doReadHeaders s segments).2 = .ok read) :
    handed (processOnce s segments).1 = [(read.rawHttp, read.body)] := by
  rw [processOnce_of_ok h, handed_append, handed_doReadHeaders, List.nil_append]
  exact congrArg _ (handed_task s read.request read.rest)

theorem handed_processOnce_error {s : Scheduler} {segments : List Str} {ended : ReadEnd}
    (h : (doReadHeaders s segments).2 = .error ended) : handed (processOnce s segments).1 = [] := by
  have hread := handed_doReadHeaders s segments
  cases hd : doReadHeaders s segments with
  | mk events result =>
    rw [hd] at h hread
    cases h
    rw [processOnce, hd]
    cases ended with
    | waiting => exact hread
    | notSupported => simpa [handed] using hread
    | thrown fault => exact hread

/-- The bytes of the handed requests. -/
def handedLength (requests : List (Str × Str)) : Nat :=
  (requests.map fun request => request.1.length + 2 + request.2.length).sum

/-- No byte is handed over twice. -/
theorem handedLength_runProcess (s : Scheduler) (segments : List Str) :
    handedLength (handed (runProcess s segments).1) ≤ segments.flatten.length := by
  induction hn : segments.length using Nat.strong_induction_on generalizing segments with
  | _ n ih =>
    cases hd : (doReadHeaders s segments).2 with
    | error ended =>
      rw [runProcess_ended (processOnce_of_error hd), handed_processOnce_error hd]
      simp [handedLength]
    | ok read =>
      obtain ⟨hlen, hlt⟩ := doReadHeaders_ok hd
      cases hr : (processOnce s segments).2 with
      | again rest =>
        obtain ⟨read', hread', rfl⟩ := processOnce_again hr
        rw [hd] at hread'
        cases hread'
        have hrest := ih read.rest.length (hn ▸ hlt) read.rest rfl
        rw [runProcess_again hr, handed_append, handed_processOnce_ok hd]
        simp only [handedLength, List.map_append, List.sum_append, List.map_singleton,
          List.sum_singleton] at hrest ⊢
        omega
      | _ =>
        rw [runProcess_ended (by rw [hr]; exact fun _ => Next.noConfusion), handed_processOnce_ok hd]
        simp only [handedLength, List.map_singleton, List.sum_singleton]
        omega

def wire (ws : List WireRequest) : List (Str × Str) := ws.map fun w => (w.rawHttp, w.body)

theorem handedLength_wire (ws : List WireRequest) :
    handedLength (wire ws) = (bytes ws).length := by
  induction ws with
  | nil => rfl
  | cons w ws ih =>
    have hw := w.length_text
    rw [w.length_head] at hw
    simp only [handedLength, wire, bytes, List.map_cons, List.sum_cons, List.flatMap_cons,
      List.length_append] at ih ⊢
    omega

/-- Whoever prepares a request with a length leaves a storage for its body. -/
def HasStorage (s : Scheduler) (w : WireRequest) : Prop :=
  hasLength w.request.headers = true → (doPrepareBody s w.request).2.body.isSome = true

/-- The body of the response to a request has a text. -/
def CanAnswer (s : Scheduler) (w : WireRequest) : Prop :=
  ∀ request, (deliver s w).2 = .ok request → ∃ text, (respond s request).2.2.bodyText = .ok text

/-- Every request ends with a segment, or a segment ends within its body. -/
def ArrivesApart (segments : List Str) (ws : List WireRequest) : Prop :=
  ∀ before w after, ws = before ++ w :: after → EndsWithin segments (bytes before).length w

theorem deliver_ok_iff {s : Scheduler} {w : WireRequest} :
    (∃ request, (deliver s w).2 = .ok request) ↔ HasStorage s w := by
  unfold deliver HasStorage
  cases hasLength w.request.headers with
  | false => simp
  | true => cases hb : (doPrepareBody s w.request).2.body <;> simp [hb]

theorem endsWithin_shift {segments rest : List Str} {length start : Nat} {w : WireRequest}
    (hbound : ∀ m, 0 < m → (Boundary segments (length + m) ↔ Boundary rest m)) :
    EndsWithin segments (length + start) w ↔ EndsWithin rest start w := by
  have hpos : 0 < w.head.length := by rw [w.length_head]; omega
  constructor
  · rintro ⟨n, hn, hhead, htext⟩
    obtain ⟨m, rfl⟩ : ∃ m, n = length + m := ⟨n - length, by omega⟩
    exact ⟨m, (hbound m (by omega)).mp hn, by omega, by omega⟩
  · rintro ⟨m, hm, hhead, htext⟩
    exact ⟨length + m, (hbound m (by omega)).mpr hm, by omega, by omega⟩

theorem arrivesApart_cons {segments rest : List Str} {w : WireRequest} {ws : List WireRequest}
    (hbound : ∀ m, 0 < m → (Boundary segments (w.text.length + m) ↔ Boundary rest m)) :
    ArrivesApart segments (w :: ws) ↔ EndsWithin segments 0 w ∧ ArrivesApart rest ws := by
  have hbytes : ∀ before, (bytes (w :: before)).length = w.text.length + (bytes before).length :=
    fun before => by simp [bytes]
  constructor
  · intro h
    refine ⟨h [] w ws rfl, fun before w' after heq => ?_⟩
    have := h (w :: before) w' after (by rw [heq]; rfl)
    rwa [hbytes, endsWithin_shift hbound] at this
  · rintro ⟨hw, hws⟩ before w' after heq
    cases before with
    | nil =>
      obtain ⟨rfl, -⟩ := List.cons.inj heq
      exact hw
    | cons w'' before =>
      obtain ⟨rfl, hsplit⟩ := List.cons.inj heq
      rw [hbytes, endsWithin_shift hbound]
      exact hws before w' after hsplit

/-- One segment for each request. -/
theorem arrivesApart_texts (ws : List WireRequest) : ArrivesApart (ws.map WireRequest.text) ws := by
  rintro before w after rfl
  refine ⟨(bytes before).length + w.text.length,
    ⟨(before ++ [w]).map WireRequest.text, after.map WireRequest.text, by simp, ?_⟩, ?_, le_rfl⟩
  · simp [bytes, List.flatMap_def]
  · have := w.length_text
    omega

theorem handed_of_again {s : Scheduler} {segments : List Str} {read : ReadRequest}
    (hread : (doReadHeaders s segments).2 = .ok read)
    (hagain : (task s read.request read.rest).2 = .again read.rest) :
    handed (runProcess s segments).1 =
      (read.rawHttp, read.body) :: handed (runProcess s read.rest).1 := by
  have hnext : (processOnce s segments).2 = .again read.rest := by
    rw [processOnce_of_ok hread]
    exact hagain
  rw [runProcess_again hnext, handed_append, handed_processOnce_ok hread]
  rfl

theorem handed_of_ended {s : Scheduler} {segments : List Str} {read : ReadRequest}
    (hread : (doReadHeaders s segments).2 = .ok read)
    (hended : (task s read.request read.rest).2 ≠ .again read.rest) :
    handed (runProcess s segments).1 = [(read.rawHttp, read.body)] := by
  have hnext : ∀ rest, (processOnce s segments).2 ≠ .again rest := by
    intro rest h
    rw [processOnce_of_ok hread] at h
    have hrest := task_again h
    rw [hrest] at h
    exact hended h
  rw [runProcess_ended hnext, handed_processOnce_ok hread]

/-- A request that no segment boundary separates from the next one keeps the session from
handing over all of them as they were sent. -/
theorem endsWithin_of_handed {s : Scheduler} {w : WireRequest} {ws : List WireRequest}
    {segments : List Str} (hbytes : segments.flatten = bytes (w :: ws))
    (hhanded : handed (runProcess s segments).1 = wire (w :: ws)) : EndsWithin segments 0 w := by
  by_contra hends
  have hsplit : segments.flatten = w.text ++ bytes ws := by rw [hbytes]; rfl
  cases hd : (doReadHeaders s segments).2 with
  | error ended =>
    rw [runProcess_ended (processOnce_of_error hd), handed_processOnce_error hd] at hhanded
    cases hhanded
  | ok read =>
    have hbeyond := doReadHeaders_beyond hsplit hends hd
    have hbody : (read.rawHttp, read.body) = (w.rawHttp, w.body) →
        read.rest.flatten.length < (bytes ws).length := by
      intro hfirst
      split at hbeyond
      · exact absurd (congrArg Prod.snd hfirst) hbeyond
      · exact hbeyond
    by_cases hagain : (task s read.request read.rest).2 = .again read.rest
    · rw [handed_of_again hd hagain] at hhanded
      obtain ⟨hfirst, hothers⟩ := List.cons.inj hhanded
      have hshort := hbody hfirst
      have hlen := handedLength_runProcess s read.rest
      rw [show handed (runProcess s read.rest).1 = wire ws from hothers, handedLength_wire] at hlen
      omega
    · rw [handed_of_ended hd hagain] at hhanded
      obtain ⟨hfirst, hothers⟩ := List.cons.inj hhanded
      cases ws with
      | nil => exact absurd (hbody hfirst) (Nat.not_lt_zero _)
      | cons w' ws => cases hothers

/-- What is handed over when a request has been read as if it had come alone. -/
theorem handed_within {s : Scheduler} {w : WireRequest} {segments rest : List Str}
    (hread : doReadHeaders s segments = ((deliver s w).1, (deliver s w).2.map fun request =>
      ⟨w.rawHttp, w.body, request, rest⟩)) :
    (¬ HasStorage s w ∧ handed (runProcess s segments).1 = []) ∨
    (HasStorage s w ∧ CanAnswer s w ∧ asksClose w.request.headers = false ∧
      handed (runProcess s segments).1 = (w.rawHttp, w.body) :: handed (runProcess s rest).1) ∨
    (HasStorage s w ∧ ¬ (CanAnswer s w ∧ asksClose w.request.headers = false) ∧
      handed (runProcess s segments).1 = [(w.rawHttp, w.body)]) := by
  rw [← deliver_ok_iff]
  cases hd : (deliver s w).2 with
  | error ended =>
    have hfail : (doReadHeaders s segments).2 = .error ended := by
      rw [hread, hd]
      rfl
    left
    refine ⟨by simp, ?_⟩
    rw [runProcess_ended (processOnce_of_error hfail), handed_processOnce_error hfail]
  | ok request =>
    have hok : (doReadHeaders s segments).2 = .ok ⟨w.rawHttp, w.body, request, rest⟩ := by
      rw [hread, hd]
      rfl
    right
    have hanswer : CanAnswer s w ↔ ∃ text, (respond s request).2.2.bodyText = .ok text := by
      unfold CanAnswer
      rw [hd]
      simp
    rw [hanswer, ← (deliver_head hd).2.2.2]
    by_cases hagain : (task s request rest).2 = .again rest
    · obtain ⟨htext, hclose⟩ := task_again_iff.mp hagain
      exact Or.inl ⟨⟨request, rfl⟩, htext, hclose, handed_of_again hok hagain⟩
    · refine Or.inr ⟨⟨request, rfl⟩, ?_, handed_of_ended hok hagain⟩
      rwa [task_again_iff] at hagain

/-- Without a byte nothing is handed over. -/
theorem handed_of_no_bytes (s : Scheduler) {segments : List Str} (h : segments.flatten = []) :
    handed (runProcess s segments).1 = [] := by
  have hlen := handedLength_runProcess s segments
  rw [h] at hlen
  cases hh : handed (runProcess s segments).1 with
  | nil => rfl
  | cons first others =>
    simp only [hh, handedLength, List.map_cons, List.sum_cons, List.length_nil] at hlen
    omega

def getRequest : WireRequest where
  front := "GET /a HTTP/1.1\r\nHost: b".toList
  body := []
  request := { method := .get, path := "a".toList, version := .http11,
               headers := Headers.insert {} "host".toList "b".toList }
  first := by decide
  parsed := rfl
  framed := ⟨rfl, by decide⟩

def noRouter : Scheduler where
  router := none
  now := ⟨0, 0, 0, 1, ⟨0, by decide⟩, 126, ⟨4, by decide⟩⟩
  fromString := fun _ => none
  nodeOrder := IterationOrder.stored _
  headerOrder := IterationOrder.stored _

end RoutineHttp.Segmentation
