import RoutineHttp.RouterInvariant
import RoutineHttp.PathBindings
import RoutineHttp.Lib.RuleSet

/-! The router is a table of registrations. The tree, its iteration orders and the map of
static handlers are not seen from outside: every call answers what the table answers. -/
namespace RoutineHttp.RouterRefinement
open RouteHandler Lib Routing RegistrationOrder RouterInvariant PathBindings
variable {α : Type}

/-- The accepted registrations, oldest first. -/
abbrev RouteTable (α : Type) := List (Str × α)

namespace RouteTable

/-- The dynamic registrations as rules over path segments. -/
def rules (table : RouteTable α) : Rules Str α :=
  (table.filter fun reg => !isStatic reg.1).map fun reg => (splitString reg.1 '/', reg.2)

/-- A registration is accepted unless a level of its path has another parameter already. -/
def addHandler (table : RouteTable α) (path : Str) (creator : α) :
    RouteTable α × Except Fault Unit :=
  if isStatic path then (table ++ [(path, creator)], .ok ())
  else match table.rules.clash isParameter (splitString path '/') with
    | none => (table ++ [(path, creator)], .ok ())
    | some (level, key, other) =>
      (table, .error (.invalidArgument (conflictText ('/' :: level.flatten) key other)))

/-- The latest static registration of the path, else the dynamic one its segments select. -/
def route (table : RouteTable α) (request : Request) : Option α × Request :=
  match latest (fun path => isStatic path && formatPath path == request.path) table with
  | some creator => (some creator, request)
  | none =>
    let found := table.rules.select isParameter (splitString request.path '/')
    (found.1, { request with pathParams := ⟨emplaceAll request.pathParams.params
      (found.2.map fun bound => (parameterName bound.1, bound.2))⟩ })

end RouteTable

/-- The calls of a router and what they return or throw. -/
inductive Call (α : Type) where
  | addHandler (path : Str) (creator : α)
  | route (request : Request)

inductive Reply (α : Type) where
  | added (result : Except Fault Unit)
  | routed (handler : Option α) (request : Request)

/-- The replies of a router; every call scans the nodes in an order of its own. -/
def replies (r : RouteHandler α) : List (NodeOrder α × Call α) → List (Reply α)
  | [] => []
  | (order, .addHandler path creator) :: calls =>
    let added := RouteHandler.addHandler order r path creator
    .added added.2 :: replies added.1 calls
  | (order, .route request) :: calls =>
    let routed := RouteHandler.route order r request
    .routed routed.1 routed.2 :: replies r calls

/-- The replies of a table. -/
def RouteTable.replies (table : RouteTable α) : List (Call α) → List (Reply α)
  | [] => []
  | .addHandler path creator :: calls =>
    let added := RouteTable.addHandler table path creator
    .added added.2 :: RouteTable.replies added.1 calls
  | .route request :: calls =>
    let routed := RouteTable.route table request
    .routed routed.1 routed.2 :: RouteTable.replies table calls

theorem mem_rules {table : RouteTable α} {keys : List Str} {creator : α} :
    (keys, creator) ∈ RouteTable.rules table ↔
      ∃ path, (path, creator) ∈ table ∧ isStatic path = false ∧ splitString path '/' = keys := by
  simp [RouteTable.rules, and_assoc]

theorem rules_value (table : RouteTable α) (keys : List Str) :
    (RouteTable.rules table).value keys =
      latest (fun path => !isStatic path && splitString path '/' == keys) table := by
  unfold RouteTable.rules
  induction table using List.reverseRecOn with
  | nil => rfl
  | append_singleton table reg ih =>
    obtain ⟨path, creator⟩ := reg
    rw [latest_append, ← ih]
    cases hs : isStatic path with
    | true => simp [hs]
    | false =>
      rw [List.filter_append, List.map_append]
      simp [hs, Rules.value_append]

/-- The tree of a router that holds the registrations stores their rules. -/
theorem stores_of_represents {table : RouteTable α} {r : RouteHandler α}
    (hr : Represents table r) : Stores r.dynamicHandlers (RouteTable.rules table) where
  find keys := by rw [hr.dynamic, rules_value]
  has keys := by
    rw [hr.nodes]
    refine or_congr_right ⟨?_, ?_⟩
    · rintro ⟨pattern, hpattern, hpre⟩
      obtain ⟨reg, hreg, hdyn, rfl⟩ := mem_dynamicPatterns.mp hpattern
      exact ⟨_, mem_rules.mpr ⟨reg.1, hreg, hdyn, rfl⟩, hpre⟩
    · rintro ⟨⟨keys', creator⟩, hrule, hpre⟩
      obtain ⟨path, hmem, hdyn, rfl⟩ := mem_rules.mp hrule
      exact ⟨_, mem_dynamicPatterns.mpr ⟨_, hmem, hdyn, rfl⟩, hpre⟩

section
variable (order : NodeOrder α) {t : ResourceHandler α} {rules : Rules Str α}

/-- The scan of a node finds the wild key of its rules, in whatever order it goes. -/
theorem findParameter_stores (hd : t.Distinct) (hs : SingleParameter t) (h : Stores t rules) :
    (findParameter order t).map Prod.fst = rules.wildKey isParameter := by
  cases hf : findParameter order t with
  | none =>
    have hnone := (findParameter_eq_none_iff hd hs).mp hf
    refine (List.find?_eq_none.mpr fun name hname hp => ?_).symm
    exact h.child_eq_none_iff.mp (hnone name hp) hname
  | some found =>
    obtain ⟨name, c⟩ := found
    obtain ⟨hp, hc⟩ := (findParameter_eq_some_iff hd hs).mp hf
    have hmem := h.child_isSome_iff.mp ⟨c, hc⟩
    cases hw : rules.wildKey isParameter with
    | none => exact absurd hp (List.find?_eq_none.mp hw name hmem)
    | some other =>
      have ho : isParameter other = true := List.find?_some hw
      have hhas := PrefixTree.has_singleton_iff.mpr
        (h.child_isSome_iff.mpr (List.mem_of_find?_eq_some hw))
      have heq := hs [] other name hhas (PrefixTree.has_singleton_iff.mpr ⟨c, hc⟩) ho hp
      rw [Option.map_some, heq]

/-- The walk selects as the rules do, and binds what they put in the place of wild keys. -/
theorem walk_stores (hd : t.Distinct) (hs : SingleParameter t) (h : Stores t rules)
    (params : Parameters) (path : List Str) :
    walk order t params path = ((rules.select isParameter path).1, ⟨emplaceAll params.params
      ((rules.select isParameter path).2.map fun bound => (parameterName bound.1, bound.2))⟩) := by
  induction path generalizing t rules params with
  | nil =>
    rw [walk, Rules.select, h.value]
    rfl
  | cons key path ih =>
    rw [walk, Rules.select]
    cases hc : t.child key with
    | some c =>
      rw [if_pos (h.child_isSome_iff.mp ⟨c, hc⟩)]
      exact ih (PrefixTree.distinct_child hd hc) (singleParameter_child hs hc) (h.child hc) params
    | none =>
      rw [if_neg (h.child_eq_none_iff.mp hc), ← findParameter_stores order hd hs h]
      cases hf : findParameter order t with
      | none => rfl
      | some found =>
        obtain ⟨name, c⟩ := found
        have hcn := ((findParameter_eq_some_iff hd hs).mp hf).2
        exact ih (PrefixTree.distinct_child hd hcn) (singleParameter_child hs hcn) (h.child hcn) _

theorem conflict_stores (hd : t.Distinct) (hs : SingleParameter t) (h : Stores t rules)
    (key : Str) : conflict order t key = if isParameter key then
      (rules.wildKey isParameter).filter fun other => other ≠ key else none := by
  rw [conflict, ← findParameter_stores order hd hs h]
  cases findParameter order t with
  | none => simp
  | some found =>
    obtain ⟨other, c⟩ := found
    by_cases he : other = key <;> simp [he, Option.filter]

/-- A descent throws where the rules clash with its keys. -/
theorem addDynamic_stores (hd : t.Distinct) (hs : SingleParameter t) (h : Stores t rules)
    (creator : α) (fullPath : Str) (keys : List Str) :
    (addDynamic order creator fullPath t keys).2 =
      match rules.clash isParameter keys with
      | none => .ok ()
      | some (level, key, other) =>
        .error (.invalidArgument (conflictText (fullPath ++ level.flatten) key other)) := by
  induction keys generalizing t rules fullPath with
  | nil => rfl
  | cons key keys ih =>
    rw [addDynamic, Rules.clash, ← conflict_stores order hd hs h key]
    cases conflict order t key with
    | some other => simp
    | none =>
      have hrest := ih (PrefixTree.distinct_childOrLeaf hd key)
        (singleParameter_childOrLeaf hs key) (h.childOrLeaf key) (fullPath ++ key)
      simp only [hrest]
      cases rules.behind key |>.clash isParameter keys with
      | none => rfl
      | some found => simp

end

theorem route_refines {table : RouteTable α} {r : RouteHandler α} (hr : Represents table r)
    (order : NodeOrder α) (request : Request) :
    RouteHandler.route order r request = RouteTable.route table request := by
  rw [RouteHandler.route, RouteTable.route, hr.static]
  have hwalk := walk_stores order hr.distinct hr.single (stores_of_represents hr)
    request.pathParams (splitString request.path '/')
  cases latest (fun path => isStatic path && formatPath path == request.path) table with
  | none => simp only [hwalk]
  | some creator => rfl

/-- A call of `add_handler` throws when the table refuses it, with the same text. -/
theorem addHandler_refines {table : RouteTable α} {r : RouteHandler α} (hr : Represents table r)
    (order : NodeOrder α) (path : Str) (creator : α) :
    (RouteHandler.addHandler order r path creator).2 =
        (RouteTable.addHandler table path creator).2 ∧
      Represents (RouteTable.addHandler table path creator).1
        (RouteHandler.addHandler order r path creator).1 := by
  have hresult : (RouteHandler.addHandler order r path creator).2 =
      (RouteTable.addHandler table path creator).2 := by
    rw [RouteHandler.addHandler, RouteTable.addHandler]
    by_cases hstatic : '{' ∉ path
    · rw [if_pos hstatic, if_pos (isStatic_iff.mpr hstatic)]
    · rw [if_neg hstatic, if_neg fun h => hstatic (isStatic_iff.mp h)]
      have hdescent := addDynamic_stores order hr.distinct hr.single
        (stores_of_represents hr) creator ['/'] (splitString path '/')
      rw [hdescent]
      cases (RouteTable.rules table).clash isParameter (splitString path '/') <;> rfl
  refine ⟨hresult, ?_⟩
  cases hadd : (RouteTable.addHandler table path creator).2 with
  | ok done =>
    have htable : (RouteTable.addHandler table path creator).1 = table ++ [(path, creator)] := by
      unfold RouteTable.addHandler at hadd ⊢
      split
      · rfl
      · split
        · rfl
        · next hclash => simp_all
    rw [htable]
    exact represents_add hr (Prod.ext rfl (hresult.trans hadd))
  | error fault =>
    have htable : (RouteTable.addHandler table path creator).1 = table := by
      unfold RouteTable.addHandler at hadd ⊢
      split
      · simp_all
      · split
        · simp_all
        · rfl
    rw [htable, addHandler_of_error (hresult.trans hadd)]
    exact hr

theorem replies_of_represents {table : RouteTable α} {r : RouteHandler α}
    (hr : Represents table r) (calls : List (NodeOrder α × Call α)) :
    replies r calls = RouteTable.replies table (calls.map Prod.snd) := by
  induction calls generalizing table r with
  | nil => rfl
  | cons call calls ih =>
    obtain ⟨order, call⟩ := call
    cases call with
    | addHandler path creator =>
      obtain ⟨hresult, hnext⟩ := addHandler_refines hr order path creator
      rw [replies, List.map_cons, RouteTable.replies, hresult, ih hnext]
    | route request =>
      rw [replies, List.map_cons, RouteTable.replies, route_refines hr order request, ih hr]

/-- Whatever is called, in whatever order the nodes are scanned, a router answers as the table
of the registrations it accepted. -/
theorem router_refines_table (calls : List (NodeOrder α × Call α)) :
    replies {} calls = RouteTable.replies [] (calls.map Prod.snd) :=
  replies_of_represents represents_empty calls

end RoutineHttp.RouterRefinement
