import RoutineHttp.Headers
import RoutineHttp.BodyStorage

/-! Responses and the text that is sent for them. -/
namespace RoutineHttp

structure Response where
  status : Status
  headers : Headers := {}
  body : Option BodyStorage := none

namespace Response

/-- The constructors from a string and from bytes, which store the body in memory. -/
def ofText (status : Status) (headers : Headers) (body : Str) : Response :=
  { status, headers, body := some (.memory body) }

/-- The fields `prepare_response` adds where they are missing. -/
def defaultHeaders (r : Response) (now : Tm) : Headers :=
  let headers := if r.headers.contains "server".toList then r.headers
    else r.headers.insert "server".toList "RoutineHttpLibrary".toList
  let headers := headers.insert "date".toList (currentHttpDate now)
  if r.body.isSome && !headers.contains "content-type".toList then
    headers.insert "content-type".toList "text/plain".toList else headers

/-- The headers `prepare_response` completes before it writes them. -/
def completeHeaders (r : Response) (now : Tm) : Except Fault Headers :=
  match r.body with
  | none => .ok ((r.defaultHeaders now).assign "content-length".toList "0".toList)
  | some body => do
    return (r.defaultHeaders now).assign "content-length".toList (toDecimal (← body.size))

def bodyText (r : Response) : Except Fault Str :=
  match r.body with
  | none => .ok []
  | some body => body.asString

def statusLine (r : Response) : Str := "HTTP/1.1 ".toList ++ r.status.line

/-- The text of a response and the response with its headers completed. -/
def prepareResponse (r : Response) (now : Tm) (order : Lib.IterationOrder HeaderField) :
    Except Fault (Str × Response) := do
  let headers ← r.completeHeaders now
  let fields := (order.order headers.headers.entries).flatMap fun field => field.asString ++ crlf
  let body ← r.bodyText
  return (r.statusLine ++ crlf ++ fields ++ crlf ++ body, { r with headers })

theorem defaultHeaders_eq (r : Response) (now : Tm) : r.defaultHeaders now =
    let headers := (r.headers.insert "server".toList "RoutineHttpLibrary".toList).insert
      "date".toList (currentHttpDate now)
    if r.body.isSome then headers.insert "content-type".toList "text/plain".toList
    else headers := by
  have hserver : (if r.headers.contains "server".toList then r.headers
      else r.headers.insert "server".toList "RoutineHttpLibrary".toList) =
      r.headers.insert "server".toList "RoutineHttpLibrary".toList := by
    split
    · next h => exact (Headers.insert_of_contains h _).symm
    · rfl
  unfold defaultHeaders
  rw [hserver]
  dsimp only
  cases r.body with
  | none => rfl
  | some body =>
    split
    · rfl
    · next h => exact (Headers.insert_of_contains (by simpa using h) _).symm

/-- A response can be written when its body has a text; the clock and the order of the
headers do not matter. -/
theorem prepareResponse_ok_iff (r : Response) (now : Tm)
    (order : Lib.IterationOrder HeaderField) :
    (∃ sent, r.prepareResponse now order = .ok sent) ↔ ∃ text, r.bodyText = .ok text := by
  cases hb : r.body with
  | none => simp [prepareResponse, completeHeaders, bodyText, hb, bind, Except.bind, pure, Except.pure]
  | some body => cases body with
    | memory data => simp [prepareResponse, completeHeaders, bodyText, hb, bind, Except.bind, pure,
        Except.pure, BodyStorage.size, BodyStorage.asString]
    | json data => cases hs : data.getString <;> simp [prepareResponse, completeHeaders, bodyText,
        hb, hs, bind, Except.bind, pure, Except.pure, BodyStorage.size, BodyStorage.asString,
        Except.map]

theorem length_statusLine (r : Response) : 9 ≤ r.statusLine.length := by
  have heq : r.statusLine = "HTTP/1.1 ".toList ++ r.status.line := rfl
  have hlen : "HTTP/1.1 ".toList.length = 9 := by decide
  rw [heq, List.length_append, hlen]
  omega

/-- What a response that has been written consists of. -/
theorem prepareResponse_ok {r r' : Response} {now : Tm} {order : Lib.IterationOrder HeaderField}
    {text : Str} (h : r.prepareResponse now order = .ok (text, r')) :
    ∃ headers body, r.completeHeaders now = .ok headers ∧ r.bodyText = .ok body ∧
      r' = { r with headers } ∧ text = r.statusLine ++ crlf ++
        (order.order headers.headers.entries).flatMap (fun field => field.asString ++ crlf) ++
          crlf ++ body := by
  obtain ⟨headers, hheaders, h⟩ := bind_eq_ok h
  obtain ⟨body, hbody, h⟩ := bind_eq_ok h
  obtain ⟨rfl, rfl⟩ := Prod.mk.inj (Except.ok.inj h)
  exact ⟨headers, body, hheaders, hbody, rfl, rfl⟩

/-- Every text starts with a status line. -/
theorem prepareResponse_text {r r' : Response} {now : Tm} {order : Lib.IterationOrder HeaderField}
    {text : Str} (h : r.prepareResponse now order = .ok (text, r')) : r.statusLine <+: text := by
  obtain ⟨headers, body, -, -, -, rfl⟩ := prepareResponse_ok h
  simp only [List.append_assoc]
  exact List.prefix_append _ _

end Response
end RoutineHttp
