import RoutineHttp.RequestFraming
import RoutineHttp.ResponseFraming

/-! Responses that carry parts of a request. What is parsed stays within its line, so a
head with such values has the lines it was given and no more. -/
namespace RoutineHttp.ReflectedInput
open Lib RequestFraming ResponseFraming

/-- The texts a handler finds in a request. -/
inductive Reflected (r : Request) : Str → Prop where
  | headerName {e : HeaderField} (h : e ∈ r.headers.headers.entries) : Reflected r e.1
  | headerValue {e : HeaderField} (h : e ∈ r.headers.headers.entries) : Reflected r e.2
  | queryKey {e : HeaderField} (h : e ∈ r.queryParams.params.entries) : Reflected r e.1
  | queryValue {e : HeaderField} (h : e ∈ r.queryParams.params.entries) : Reflected r e.2
  | path : Reflected r r.path
  | pathValue {e : HeaderField} (h : e ∈ r.pathParams.params.entries) : Reflected r e.2

/-- Header names are constants, the values come from the request. -/
def Reflects (r : Request) (response : Response) : Prop :=
  ∀ e ∈ response.headers.headers.entries, e.1 ≠ [] ∧ LineText e.1 ∧ Reflected r e.2

/-- The first empty line is the one in front of the body, and the head in front of it has
the status line, one line for each header and the empty line. -/
def OneHead (response : Response) (now : Tm) (order : IterationOrder HeaderField) : Prop :=
  ∀ text response', response.prepareResponse now order = .ok (text, response') →
    ∃ head body, response.bodyText = .ok body ∧ text.dropInfix? headEnd = some (head, body) ∧
      head ++ headEnd = response.statusLine ++ crlf ++
        (order.order response'.headers.headers.entries).flatMap
          (fun field => field.asString ++ crlf) ++ crlf ∧
      (head ++ headEnd).count '\n' = response'.headers.headers.entries.length + 2

theorem Reflected.line {r : Request} (h : LineBound r) {v : Str} (hv : Reflected r v) : '\n' ∉ v := by
  cases hv with
  | headerName he => exact (h.headers _ he).nameLine
  | headerValue he => exact (h.headers _ he).valueLine
  | queryKey he => exact (h.query _ he).1
  | queryValue he => exact (h.query _ he).2
  | path => exact h.path
  | pathValue he => exact h.pathValues _ he

/-- A field that stays within its line. -/
structure BoundField (field : HeaderField) : Prop where
  nameNonempty : field.1 ≠ []
  nameLine : LineText field.1
  valueLine : '\n' ∉ field.2

theorem BoundField.of_value {name : Str} (hn : name ≠ []) (hl : LineText name) {value : Str}
    (hv : '\n' ∉ value) : BoundField ⟨name, value⟩ := ⟨hn, hl, hv⟩

/-- The fields `prepare_response` adds stay within their lines. -/
theorem boundField_completeHeaders {response : Response} {now : Tm} {headers : Headers}
    (hb : ∀ e ∈ response.headers.headers.entries, BoundField e)
    (hc : response.completeHeaders now = .ok headers) :
    ∀ e ∈ headers.headers.entries, BoundField e := by
  have hdefault : ∀ e ∈ (response.defaultHeaders now).headers.entries, BoundField e :=
    forall_defaultHeaders hb (.of_value (by decide) (by decide) (by decide))
      (.of_value (by decide) (by decide) (lineText_currentHttpDate now).2)
      (.of_value (by decide) (by decide) (by decide))
  have hassign : ∀ value, '\n' ∉ value →
      ∀ e ∈ ((response.defaultHeaders now).assign "content-length".toList value).headers.entries,
        BoundField e := by
    intro value hvalue e he
    obtain rfl | ⟨-, he⟩ := mem_entries_insert.mp he
    · exact .of_value (by decide) (by decide) hvalue
    · exact hdefault e he
  unfold Response.completeHeaders at hc
  split at hc
  · cases hc
    exact hassign _ (by decide)
  · next body hbody =>
    obtain ⟨n, -, hc⟩ := bind_eq_ok hc
    rw [← Except.ok.inj hc]
    exact hassign _ (lineText_toDecimal n).2

/-- Every response text is a message. -/
theorem prepareResponse_message {response response' : Response} {now : Tm}
    {order : IterationOrder HeaderField} {text : Str}
    (h : response.prepareResponse now order = .ok (text, response')) :
    ∃ body, response.bodyText = .ok body ∧ response.completeHeaders now = .ok response'.headers ∧
      text = Message.write ⟨response.statusLine,
        (order.order response'.headers.headers.entries).map HeaderField.asString, body⟩ := by
  obtain ⟨headers, body, hheaders, hbody, rfl, rfl⟩ := Response.prepareResponse_ok h
  exact ⟨body, hbody, hheaders, (write_fields _ _ _).symm⟩

/-- Fields that stay within their lines make one head. -/
theorem oneHead_of_bound {response : Response}
    (hb : ∀ e ∈ response.headers.headers.entries, BoundField e) (now : Tm)
    (order : IterationOrder HeaderField) : OneHead response now order := by
  intro text response' h
  obtain ⟨body, hbody, hc, rfl⟩ := prepareResponse_message h
  have hbound := boundField_completeHeaders hb hc
  have hfields : ∀ line ∈ (order.order response'.headers.headers.entries).map HeaderField.asString,
      '\n' ∉ line ∧ line ≠ [] := by
    intro line hline
    obtain ⟨field, hfield, rfl⟩ := List.mem_map.mp hline
    have hf := hbound field ((order.perm _).mem_iff.mp hfield)
    exact HeaderField.asString_line hf.nameLine.2 hf.valueLine
  have hstart := (lineText_statusLine response).2
  obtain ⟨head, hcut, hhead⟩ := Message.cut_writeHead ⟨response.statusLine,
    (order.order response'.headers.headers.entries).map HeaderField.asString, body⟩ hstart hfields
  refine ⟨head, body, hbody, hcut, ?_, ?_⟩
  · rw [hhead, Message.writeHead, List.flatMap_map]
    rfl
  · rw [hhead, Message.count_writeHead _ hstart fun line hl => (hfields line hl).1, List.length_map,
      (order.perm _).length_eq]

/-- Nothing a request carries after parsing and routing leaves its line, and a response that
reflects it has one head. -/
theorem no_response_splitting {rawHttp : Str} {parsed : Request}
    (h : Request.ofRaw rawHttp = .ok parsed) {α : Type} (router : RouteHandler α)
    (nodeOrder : NodeOrder α) :
    (∀ v, Reflected (RouteHandler.route nodeOrder router parsed).2 v → '\n' ∉ v) ∧
    ∀ response, Reflects (RouteHandler.route nodeOrder router parsed).2 response →
      ∀ (now : Tm) (order : IterationOrder HeaderField), OneHead response now order := by
  have hline : LineBound (RouteHandler.route nodeOrder router parsed).2 :=
    lineBound_route (lineBound_ofRaw h)
  refine ⟨fun v hv => hv.line hline, fun response hr now order => ?_⟩
  refine oneHead_of_bound (fun e he => ?_) now order
  obtain ⟨hname, htext, hvalue⟩ := hr e he
  exact ⟨hname, htext, hvalue.line hline⟩

def redirect : Response :=
  { status := .found, headers := ({} : Headers).insert "location".toList "a\rb".toList }

theorem no_response_splitting_redirect : ∃ parsed,
    Request.ofRaw "GET /a\rb HTTP/1.1\r\nHost: c\r\n".toList = .ok parsed ∧
    (∀ v, Reflected (RouteHandler.route (IterationOrder.stored _) ({} : RouteHandler Nat) parsed).2 v →
      '\n' ∉ v) ∧
    ∀ (now : Tm) (order : IterationOrder HeaderField), OneHead redirect now order := by
  have hparsed : ∃ parsed,
      Request.ofRaw "GET /a\rb HTTP/1.1\r\nHost: c\r\n".toList = .ok parsed ∧
        parsed.path = "a\rb".toList := ⟨_, rfl, rfl⟩
  obtain ⟨parsed, h, hpath⟩ := hparsed
  obtain ⟨hline, hone⟩ := no_response_splitting h ({} : RouteHandler Nat) (IterationOrder.stored _)
  refine ⟨parsed, h, hline, hone redirect fun e he => ?_⟩
  cases List.mem_singleton.mp he
  have hvalue : (RouteHandler.route (IterationOrder.stored _) ({} : RouteHandler Nat) parsed).2.path =
      "a\rb".toList := hpath
  exact ⟨by decide, by decide, hvalue ▸ .path⟩

end RoutineHttp.ReflectedInput
