import RoutineHttp.PathTemplate
import RoutineHttp.ResponseFraming

/-! Messages that are sent more than once. Writing a request leaves parameters behind and writing
a response leaves headers behind, which the next writing finds. -/
namespace RoutineHttp.Resending
open Lib PathBindings PathTemplate

/-- One writing of a request, by the orders its fields come in. -/
structure Writing where
  queryOrder : IterationOrder HeaderField
  order : IterationOrder HeaderField

/-- The texts of a request that is written again and again. -/
def writeAll (r : Request) : List Writing → Except Fault (List Str)
  | [] => .ok []
  | w :: ws => do
    let sent ← r.prepareRequest w.queryOrder w.order
    let texts ← writeAll sent.2 ws
    return sent.1 :: texts

/-- One sending of a response: what its handler has done to the content of the body, the time,
and the order of its fields. -/
structure Sending where
  change : BodyStorage → BodyStorage
  now : Tm
  order : IterationOrder HeaderField

def changed (r : Response) (change : BodyStorage → BodyStorage) : Response :=
  { r with body := r.body.map change }

/-- The texts of a response that is sent again and again. -/
def sendAll (r : Response) : List Sending → Except Fault (List Str)
  | [] => .ok []
  | s :: ss => do
    let sent ← (changed r s.change).prepareResponse s.now s.order
    let texts ← sendAll sent.2 ss
    return sent.1 :: texts

/-- The texts of the response as it was made, with one time for all of them. -/
def sendAllAt (now : Tm) (r : Response) : List Sending → Except Fault (List Str)
  | [] => .ok []
  | s :: ss => do
    let sent ← (changed r s.change).prepareResponse now s.order
    let texts ← sendAllAt now (changed r s.change) ss
    return sent.1 :: texts

/-- The loop over a template keeps the parameters there are. -/
theorem lookup_templateText {last : Option Str} {params : Parameters} {segments : List Str}
    {name value : Str} (h : params.params.lookup name = some value) :
    (Request.templateText last params segments).2.params.lookup name = some value := by
  induction segments generalizing params with
  | nil => exact h
  | cons segment segments ih =>
    rw [Request.templateText]
    refine ih ?_
    split
    · unfold Parameters.getOrCreate getOrCreate
      dsimp only
      split
      · exact h
      · next hnone =>
        rw [AList.lookup_insert_ne fun heq => by rw [heq, hnone] at h; cases h]
        exact h
    · exact h

/-- It writes what the parameters it leaves say. -/
theorem templateText_fst (last : Option Str) (params : Parameters) (segments : List Str) :
    (Request.templateText last params segments).1 =
      segments.flatMap fun segment => piece (Request.templateText last params segments).2 segment ++
        if some segment = last then [] else ['/'] := by
  induction segments generalizing params with
  | nil => rfl
  | cons segment segments ih =>
    have hfirst : (if isParameter segment then params.getOrCreate (parameterName segment)
        else (segment, params)).1 =
          piece (Request.templateText last params (segment :: segments)).2 segment := by
      rw [Request.templateText, piece]
      by_cases hp : isParameter segment = true
      · simp only [if_pos hp]
        have hfound : (params.getOrCreate (parameterName segment)).2.params.lookup
            (parameterName segment) = some (params.getOrCreate (parameterName segment)).1 := by
          unfold Parameters.getOrCreate getOrCreate
          dsimp only
          split
          · assumption
          · exact AList.lookup_insert _
        rw [lookup_templateText hfound, Option.getD_some]
      · simp only [if_neg hp]
    rw [List.flatMap_cons, ← hfirst, Request.templateText]
    simp only [ih, List.append_assoc]

/-- A second pass over the template writes the same and leaves the same. -/
theorem templateText_again (last : Option Str) (params : Parameters) (segments : List Str) :
    Request.templateText last (Request.templateText last params segments).2 segments =
      Request.templateText last params segments := by
  have hbound : AllBound (Request.templateText last params segments).2 segments :=
    fun segment hsegment hp =>
      decide_eq_true (mem_templateText.mpr (Or.inr ⟨segment, hsegment, hp, rfl⟩))
  rw [templateText_of_bound hbound, ← templateText_fst]

theorem pathText_again {r : Request} {found : Str × Parameters} (h : r.pathText = .ok found) :
    Request.pathText { r with pathParams := found.2 } = .ok found := by
  by_cases hsize : r.pathParams.size > 0
  · rw [pathText_of_size hsize] at h
    cases h
    obtain ⟨name, hname⟩ := size_pos_iff.mp hsize
    obtain ⟨value, hvalue⟩ := mem_iff_exists_lookup.mp (of_decide_eq_true hname)
    have hkept : (Request.templateText (splitString r.path '/').getLast? r.pathParams
        (splitString r.path '/')).2.size > 0 :=
      size_pos_iff.mpr ⟨name, decide_eq_true (mem_iff_exists_lookup.mpr
        ⟨value, lookup_templateText hvalue⟩)⟩
    rw [Request.pathText, if_pos hkept]
    exact congrArg Except.ok (templateText_again _ r.pathParams _)
  · have hsame : found.2 = r.pathParams := by
      rw [Request.pathText, if_neg hsize] at h
      split at h
      · cases h
      · cases h
        rfl
    rw [hsame]
    exact h

/-- A request that has been written is written as before. -/
theorem prepareRequest_again {r r' : Request} {queryOrder order : IterationOrder HeaderField}
    {text : Str} (h : r.prepareRequest queryOrder order = .ok (text, r'))
    (queryOrder' order' : IterationOrder HeaderField) :
    r'.prepareRequest queryOrder' order' = r.prepareRequest queryOrder' order' := by
  obtain ⟨found, hfound, rfl⟩ := RequestFraming.prepareRequest_ok h
  unfold Request.prepareRequest
  rw [hfound, pathText_again hfound]
  rfl

theorem writeAll_congr {r r' : Request}
    (h : ∀ queryOrder order, r'.prepareRequest queryOrder order = r.prepareRequest queryOrder order)
    (ws : List Writing) : writeAll r' ws = writeAll r ws := by
  cases ws with
  | nil => rfl
  | cons w ws => rw [writeAll, writeAll, h]

/-- However often a request is written, each text is that of the first writing, up to the
orders of its fields, whatever parameters its template has created meanwhile. -/
theorem request_resent (r : Request) (ws : List Writing) :
    writeAll r ws = ws.mapM fun w => (r.prepareRequest w.queryOrder w.order).map Prod.fst := by
  induction ws with
  | nil => rfl
  | cons w ws ih =>
    rw [writeAll, List.mapM_cons, ← ih]
    cases hsent : r.prepareRequest w.queryOrder w.order with
    | error fault => rfl
    | ok sent =>
      have hrest := writeAll_congr (prepareRequest_again hsent) ws
      simp only [bind, Except.bind, Except.map, hrest]

theorem contains_of_insert {h : Headers} {name key value : Str}
    (hc : name = key ∨ h.contains name = true) : (h.insert key value).contains name = true :=
  decide_eq_true (Headers.mem_insert.mpr (hc.imp_right of_decide_eq_true))

theorem contains_assign {h : Headers} {name : Str} (hc : h.contains name = true) (key value : Str) :
    (h.assign key value).contains name = true :=
  decide_eq_true ((AList.mem_insert _).mpr (Or.inr (of_decide_eq_true hc)))

theorem assign_assign (h : Headers) (key value value' : Str) :
    (h.assign key value).assign key value' = h.assign key value' :=
  congrArg Headers.mk (AList.insert_insert h.headers)

/-- The default fields are there. -/
theorem contains_defaultHeaders (r : Response) (now : Tm) :
    (r.defaultHeaders now).contains "server".toList = true ∧
      (r.defaultHeaders now).contains "date".toList = true ∧
      (r.body.isSome = true → (r.defaultHeaders now).contains "content-type".toList = true) := by
  rw [Response.defaultHeaders_eq]
  dsimp only
  cases r.body with
  | none =>
    exact ⟨contains_of_insert (Or.inr (contains_of_insert (Or.inl rfl))),
      contains_of_insert (Or.inl rfl), fun h => nomatch h⟩
  | some body =>
    exact ⟨contains_of_insert (Or.inr (contains_of_insert (Or.inr (contains_of_insert (Or.inl rfl))))),
      contains_of_insert (Or.inr (contains_of_insert (Or.inl rfl))),
      fun _ => contains_of_insert (Or.inl rfl)⟩

/-- Headers with all default fields stay as they are. -/
theorem defaultHeaders_of_contains {r : Response}
    (hserver : r.headers.contains "server".toList = true)
    (hdate : r.headers.contains "date".toList = true)
    (htype : r.body.isSome = true → r.headers.contains "content-type".toList = true) (now : Tm) :
    r.defaultHeaders now = r.headers := by
  rw [Response.defaultHeaders_eq]
  dsimp only
  rw [Headers.insert_of_contains hserver, Headers.insert_of_contains hdate]
  split
  · next hbody => exact Headers.insert_of_contains (htype hbody) _
  · rfl

/-- The content of the body does not matter to them. -/
theorem defaultHeaders_changed (r : Response) (change : BodyStorage → BodyStorage) (now : Tm) :
    (changed r change).defaultHeaders now = r.defaultHeaders now := by
  rw [Response.defaultHeaders_eq, Response.defaultHeaders_eq, changed, Option.isSome_map]

theorem completeHeaders_cases {r : Response} {now : Tm} {headers : Headers}
    (h : r.completeHeaders now = .ok headers) :
    ∃ length, headers = (r.defaultHeaders now).assign "content-length".toList length := by
  unfold Response.completeHeaders at h
  split at h
  · cases h
    exact ⟨_, rfl⟩
  · obtain ⟨size, -, h⟩ := bind_eq_ok h
    cases h
    exact ⟨_, rfl⟩

/-- Completed headers have all default fields. -/
theorem defaultHeaders_completed {r : Response} {now : Tm} {headers : Headers}
    (h : r.completeHeaders now = .ok headers) (later : Tm) :
    Response.defaultHeaders { r with headers } later = headers := by
  obtain ⟨length, rfl⟩ := completeHeaders_cases h
  obtain ⟨hserver, hdate, htype⟩ := contains_defaultHeaders r now
  refine defaultHeaders_of_contains (r := { r with headers := _ }) ?_ ?_ (fun hbody => ?_) later
  · exact contains_assign hserver _ _
  · exact contains_assign hdate _ _
  · exact contains_assign (htype hbody) _ _

/-- Completing them again sets only the length anew, to that of the body. -/
theorem completeHeaders_again {r : Response} {now : Tm} {headers : Headers}
    (h : r.completeHeaders now = .ok headers) (change : BodyStorage → BodyStorage) (later : Tm) :
    (changed { r with headers } change).completeHeaders later =
      (changed r change).completeHeaders now := by
  obtain ⟨length, heq⟩ := completeHeaders_cases h
  unfold Response.completeHeaders
  rw [defaultHeaders_changed, defaultHeaders_changed, defaultHeaders_completed h, heq]
  simp only [assign_assign]
  rfl

/-- A response that has been sent is sent as it would have been then. -/
theorem prepareResponse_again {r r' : Response} {now : Tm} {order : IterationOrder HeaderField}
    {text : Str} (h : r.prepareResponse now order = .ok (text, r'))
    (change : BodyStorage → BodyStorage) (later : Tm) (order' : IterationOrder HeaderField) :
    (changed r' change).prepareResponse later order' =
      (changed r change).prepareResponse now order' := by
  obtain ⟨headers, body, hheaders, -, rfl, -⟩ := Response.prepareResponse_ok h
  unfold Response.prepareResponse
  rw [completeHeaders_again hheaders change later]
  rfl

/-- The response at hand is sent as the one that was made, at that time. -/
def SentAs (now : Tm) (made r : Response) : Prop :=
  ∀ change later order, (changed r change).prepareResponse later order =
    (changed made change).prepareResponse now order

theorem sendAll_eq {now : Tm} {made r : Response} (h : SentAs now made r) (ss : List Sending) :
    sendAll r ss = sendAllAt now made ss := by
  induction ss generalizing made r with
  | nil => rfl
  | cons s ss ih =>
    rw [sendAll, sendAllAt, h s.change s.now s.order]
    cases hsent : (changed made s.change).prepareResponse now s.order with
    | error fault => rfl
    | ok sent =>
      have hrest := ih (prepareResponse_again hsent)
      simp only [bind, Except.bind, hrest]

/-- However often a response is sent, and whatever happens to the content of its body in
between, each text is the one of a fresh response with that body, dated with the first
sending. -/
theorem response_resent (r : Response) (s : Sending) (ss : List Sending) :
    sendAll r (s :: ss) = sendAllAt s.now r (s :: ss) := by
  rw [sendAll, sendAllAt]
  cases hsent : (changed r s.change).prepareResponse s.now s.order with
  | error fault => rfl
  | ok sent =>
    have hrest := sendAll_eq (prepareResponse_again hsent) ss
    simp only [bind, Except.bind, hrest]

end RoutineHttp.Resending
