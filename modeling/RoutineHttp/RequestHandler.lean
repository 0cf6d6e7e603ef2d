import RoutineHttp.Response
import RoutineHttp.RouteHandler

/-! Resource handlers and what the sessions see of the scheduler. A handler gets a request
it can change only where the class lets it: method, path, version and headers are read-only. -/
namespace RoutineHttp

/-- The parts of a request without a mutable accessor. -/
def Request.SameHead (a b : Request) : Prop :=
  a.method = b.method ∧ a.path = b.path ∧ a.version = b.version ∧ a.headers = b.headers

theorem Request.SameHead.trans {a b c : Request} (hab : a.SameHead b) (hbc : b.SameHead c) :
    a.SameHead c :=
  ⟨hab.1.trans hbc.1, hab.2.1.trans hbc.2.1, hab.2.2.1.trans hbc.2.2.1, hab.2.2.2.trans hbc.2.2.2⟩

/-- A non-throwing handler. The number counts the earlier `process_request` calls for the
request, as a handler may answer differently when it is asked again. -/
structure RequestHandler where
  prepareRequest : Request → Request × Option Response
  processRequest : Nat → Request → Request × Option Response
  prepare_head : ∀ request, (prepareRequest request).1.SameHead request
  process_head : ∀ calls request, (processRequest calls request).1.SameHead request

/-- The `prepare_request` of the base class. -/
def defaultPrepare (request : Request) : Request × Option Response :=
  (if request.method ≠ .head then { request with body := some .emptyMemory } else request, none)

theorem defaultPrepare_head (request : Request) : (defaultPrepare request).1.SameHead request := by
  unfold defaultPrepare
  split <;> exact ⟨rfl, rfl, rfl, rfl⟩

/-- What a session uses from outside: the router, the clock, the JSON parser and the
iteration orders of the containers. -/
structure Scheduler where
  router : Option (RouteHandler RequestHandler)
  now : Tm
  fromString : Str → Option JsonValue
  nodeOrder : NodeOrder RequestHandler
  headerOrder : Lib.IterationOrder HeaderField

def Scheduler.routeRequest (s : Scheduler) (request : Request) : Option RequestHandler × Request :=
  match s.router with
  | none => (none, request)
  | some router => RouteHandler.route s.nodeOrder router request

theorem Scheduler.routeRequest_head (s : Scheduler) (request : Request) :
    (s.routeRequest request).2.SameHead request := by
  unfold Scheduler.routeRequest RouteHandler.route
  split
  · exact ⟨rfl, rfl, rfl, rfl⟩
  · split <;> exact ⟨rfl, rfl, rfl, rfl⟩

theorem Scheduler.routeRequest_path {s : Scheduler} {a b : Request} (h : a.path = b.path) :
    (s.routeRequest a).1 = (s.routeRequest b).1 := by
  unfold Scheduler.routeRequest
  cases s.router with
  | none => rfl
  | some router => exact RouteHandler.route_fst_path h

end RoutineHttp
