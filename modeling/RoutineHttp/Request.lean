import RoutineHttp.Headers
import RoutineHttp.Params
import RoutineHttp.BodyStorage

/-! Requests: parsing a head and writing a request out again. -/
namespace RoutineHttp

structure Request where
  method : Method
  path : Str
  version : Version
  headers : Headers := {}
  queryParams : Parameters := {}
  pathParams : Parameters := {}
  body : Option BodyStorage := none

/-- The token the constructor takes at an index without checking that it is there. -/
def part (parts : List Str) (i : Nat) : Except Fault Str :=
  match parts[i]? with
  | some token => .ok token
  | none => .error .undefinedBehaviour

def splitParameter (str : Str) : Str × Str :=
  match find str '=' 0 with
  | none => (str, [])
  | some ind => (str.take ind, str.drop (ind + 1))

/-- The index of the query mark, 0 when there is none, and the parameters with those
of the query added. -/
def parseQueryParameters (params : Parameters) (string : Str) : Nat × Parameters :=
  match find string '?' 0 with
  | none => (0, params)
  | some index =>
    (index, (splitString (string.drop (index + 1)) '&').foldl
      (fun params str => params.emplace (splitParameter str).1 (splitParameter str).2) params)

namespace Request

/-- The constructor from a raw head. A path cut off in front of a query keeps its
spelling, any other one is normalised. -/
def ofRaw (rawHttp : Str) : Except Fault Request := do
  let (line, stream) := (getline rawHttp '\n').getD ([], [])
  let parts := splitStringLimit line ' ' 3
  let method := methodFromString (← part parts 0)
  let target ← part parts 1
  let (index, queryParams) := parseQueryParameters {} target
  let path := if index = 0 then formatPath target else target.take index
  let version := versionFromString (← part parts 2)
  let headers ← Headers.initFromStream {} stream
  return { method, path, version, headers, queryParams }

/-- What an accepted head consists of: three tokens and a header block. -/
theorem ofRaw_ok {rawHttp : Str} {r : Request} (h : ofRaw rawHttp = .ok r) :
    let line := ((getline rawHttp '\n').getD ([], [])).1
    let stream := ((getline rawHttp '\n').getD ([], [])).2
    ∃ method target version headers, (splitStringLimit line ' ' 3)[0]? = some method ∧
      (splitStringLimit line ' ' 3)[1]? = some target ∧
      (splitStringLimit line ' ' 3)[2]? = some version ∧
      Headers.initFromStream {} stream = .ok headers ∧
      r = { method := methodFromString method
            path := if (parseQueryParameters {} target).1 = 0 then formatPath target
              else target.take (parseQueryParameters {} target).1
            version := versionFromString version
            headers
            queryParams := (parseQueryParameters {} target).2 } := by
  intro line stream
  have hpart : ∀ {parts i token}, part parts i = .ok token → parts[i]? = some token := by
    intro parts i token hp
    unfold part at hp
    split at hp
    · cases hp; assumption
    · cases hp
  obtain ⟨method, hmethod, h⟩ := bind_eq_ok h
  obtain ⟨target, htarget, h⟩ := bind_eq_ok h
  obtain ⟨version, hversion, h⟩ := bind_eq_ok h
  obtain ⟨headers, hheaders, h⟩ := bind_eq_ok h
  exact ⟨method, target, version, headers, hpart hmethod, hpart htarget, hpart hversion, hheaders,
    (Except.ok.inj h).symm⟩

/-- The loop over the segments of a template: a separator follows every segment whose
text differs from the last one's. -/
def templateText (last : Option Str) (params : Parameters) : List Str → Str × Parameters
  | [] => ([], params)
  | segment :: rest =>
    let found := if isParameter segment then params.getOrCreate (parameterName segment)
      else (segment, params)
    let separator := if some segment = last then [] else ['/']
    let tail := templateText last found.2 rest
    (found.1 ++ separator ++ tail.1, tail.2)

/-- The path `prepare_request` writes. `back()` of an empty string is undefined. -/
def pathText (r : Request) : Except Fault (Str × Parameters) :=
  if r.pathParams.size > 0 then
    let parts := splitString r.path '/'
    .ok (templateText parts.getLast? r.pathParams parts)
  else match r.path.getLast? with
    | none => .error .undefinedBehaviour
    | some c => .ok (if c = '/' then r.path.dropLast else formatPath r.path, r.pathParams)

def queryText (fields : List HeaderField) : Str :=
  ['&'].intercalate (fields.map fun field => field.1 ++ '=' :: field.2)

def requestLine (r : Request) (path : Str) (queryOrder : Lib.IterationOrder HeaderField) : Str :=
  let query := if r.queryParams.size > 0 then
    '?' :: queryText (queryOrder.order r.queryParams.params.entries) else []
  r.method.name ++ " /".toList ++ path ++ query ++ " HTTP/1.1".toList

def agentText (r : Request) : Str :=
  if r.headers.contains Header.userAgent.name then []
  else "User-Agent: Asio/RoutineHttp".toList ++ crlf

/-- The appended Content-Length line and the body. -/
def bodyText (r : Request) : Except Fault (Str × Str) :=
  match r.body with
  | none => .ok ([], [])
  | some body => do
    return ("Content-Length: ".toList ++ toDecimal (← body.size) ++ crlf, ← body.asString)

/-- The text sent for a request and the request afterwards, whose mutable path
parameters the template may have extended. -/
def prepareRequest (r : Request) (queryOrder order : Lib.IterationOrder HeaderField) :
    Except Fault (Str × Request) := do
  let (path, pathParams) ← r.pathText
  let fields := (order.order r.headers.headers.entries).flatMap fun field => field.asString ++ crlf
  let (length, body) ← r.bodyText
  return (r.requestLine path queryOrder ++ crlf ++ fields ++ r.agentText ++ length ++ crlf ++ body,
    { r with pathParams })

end Request
end RoutineHttp
