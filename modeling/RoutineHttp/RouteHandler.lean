import RoutineHttp.Request
import RoutineHttp.Lib.PrefixTree

/-! The router: static handlers by normalised path, dynamic ones in a tree whose
nodes are keyed by path segments. `α` is what a registration stores. -/
namespace RoutineHttp

/-- Its value is the resource, its children are the nodes. -/
abbrev ResourceHandler (α : Type) := Lib.PrefixTree Str α

structure RouteHandler (α : Type) where
  dynamicHandlers : ResourceHandler α := Lib.PrefixTree.leaf
  staticHandlers : Lib.Dictionary Str α := ∅

abbrev NodeOrder (α : Type) := Lib.IterationOrder (Str × ResourceHandler α)

namespace RouteHandler
variable {α : Type}

/-- The scan for a parameter among the keys of a node. -/
def findParameter (order : NodeOrder α) (node : ResourceHandler α) :
    Option (Str × ResourceHandler α) :=
  (order.order node.children).find? fun pair => isParameter pair.1

def conflictText (fullPath key other : Str) : Str :=
  "The path '".toList ++ fullPath ++ key ++ "' already has a another parameter '".toList ++ other ++
    "' on it.".toList

/-- The parameter already on this level, when it is another one than the key. -/
def conflict (order : NodeOrder α) (node : ResourceHandler α) (key : Str) : Option Str :=
  if isParameter key then
    match findParameter order node with
    | some (other, _) => if other ≠ key then some other else none
    | none => none
  else none

/-- The descent of `add_handler`. Nodes created before a conflict stay. -/
def addDynamic (order : NodeOrder α) (creator : α) :
    Str → ResourceHandler α → List Str → ResourceHandler α × Except Fault Unit
  | _, node, [] => (.node (some creator) node.children, .ok ())
  | fullPath, node, key :: keys =>
    match conflict order node key with
    | some other => (node, .error (.invalidArgument (conflictText fullPath key other)))
    | none =>
      let child := addDynamic order creator (fullPath ++ key) (node.childOrLeaf key) keys
      (.node node.value (Lib.PrefixTree.setChild key child.1 node.children), child.2)

/-- The router after `add_handler`, and whether the call threw. -/
def addHandler (order : NodeOrder α) (r : RouteHandler α) (path : Str) (creator : α) :
    RouteHandler α × Except Fault Unit :=
  if '{' ∉ path then
    ({ r with staticHandlers := r.staticHandlers.insert (formatPath path) creator }, .ok ())
  else
    let added := addDynamic order creator ['/'] r.dynamicHandlers (splitString path '/')
    ({ r with dynamicHandlers := added.1 }, added.2)

/-- The descent of `route`: the literal child first, the parameter of the level only
when there is none. Bindings made on the way are kept when the walk fails. -/
def walk (order : NodeOrder α) : ResourceHandler α → Parameters → List Str → Option α × Parameters
  | node, params, [] => (node.value, params)
  | node, params, key :: keys =>
    match node.child key with
    | some child => walk order child params keys
    | none =>
      match findParameter order node with
      | none => (none, params)
      | some (name, child) => walk order child (params.emplace (parameterName name) key) keys

/-- The handler of a request and the request with its path parameters bound. -/
def route (order : NodeOrder α) (r : RouteHandler α) (request : Request) : Option α × Request :=
  match r.staticHandlers.lookup request.path with
  | some creator => (some creator, request)
  | none =>
    let found := walk order r.dynamicHandlers request.pathParams (splitString request.path '/')
    (found.1, { request with pathParams := found.2 })

/-- Which handler the walk finds does not depend on the bindings it starts with. -/
theorem walk_fst_params (order : NodeOrder α) (node : ResourceHandler α) (params params' : Parameters)
    (keys : List Str) : (walk order node params keys).1 = (walk order node params' keys).1 := by
  induction keys generalizing node params params' with
  | nil => rfl
  | cons key keys ih =>
    simp only [walk]
    cases node.child key with
    | some child => exact ih child params params'
    | none =>
      cases findParameter order node with
      | none => rfl
      | some found => exact ih found.2 _ _

theorem route_of_static {order : NodeOrder α} {r : RouteHandler α} {request : Request} {creator : α}
    (h : r.staticHandlers.lookup request.path = some creator) :
    route order r request = (some creator, request) := by
  rw [route, h]

theorem route_of_dynamic {order : NodeOrder α} {r : RouteHandler α} {request : Request}
    (h : r.staticHandlers.lookup request.path = none) :
    route order r request =
      ((walk order r.dynamicHandlers request.pathParams (splitString request.path '/')).1,
        { request with pathParams :=
          (walk order r.dynamicHandlers request.pathParams (splitString request.path '/')).2 }) := by
  rw [route, h]

theorem route_fst_path {order : NodeOrder α} {r : RouteHandler α} {a b : Request}
    (h : a.path = b.path) : (route order r a).1 = (route order r b).1 := by
  unfold route
  rw [h]
  cases r.staticHandlers.lookup b.path with
  | some creator => rfl
  | none => exact walk_fst_params _ _ _ _ _

end RouteHandler
end RoutineHttp
