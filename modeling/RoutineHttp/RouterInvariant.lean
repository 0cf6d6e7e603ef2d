import RoutineHttp.RegistrationOrder

/-! The router over any calls of `add_handler`, also those that throw. A call that throws
changes nothing, so the nodes keep one parameter each and no scan depends on its order. -/
namespace RoutineHttp.RouterInvariant
open RouteHandler Lib Routing RegistrationOrder
variable {α : Type}

/-- The router after calls of `add_handler` whose exceptions are caught. -/
def afterCalls (r : RouteHandler α) (calls : List (NodeOrder α × Str × α)) : RouteHandler α :=
  calls.foldl (fun r call => (addHandler call.1 r call.2.1 call.2.2).1) r

/-- What the keys of a node promise to the scans. -/
structure Orderly (node : ResourceHandler α) : Prop where
  distinct : (node.children.map Prod.fst).Nodup
  single : ∀ a ∈ node.children.map Prod.fst, ∀ b ∈ node.children.map Prod.fst,
    isParameter a = true → isParameter b = true → a = b
  segments : ∀ key ∈ node.children.map Prod.fst, key ≠ [] ∧ '/' ∉ key

theorem findParameter_leaf (order : NodeOrder α) :
    findParameter order PrefixTree.leaf = none := by
  have hnil : order.order [] = [] := (order.perm []).eq_nil
  simp [findParameter, PrefixTree.leaf, PrefixTree.children, hnil]

/-- In a fresh node there is nothing to conflict with. -/
theorem addDynamic_leaf (order : NodeOrder α) (creator : α) (fullPath : Str) (keys : List Str) :
    (addDynamic order creator fullPath PrefixTree.leaf keys).2 = .ok () := by
  induction keys generalizing fullPath with
  | nil => rfl
  | cons key keys ih =>
    have hconflict : conflict order PrefixTree.leaf key = none := by
      simp [conflict, findParameter_leaf]
    have hchild : (PrefixTree.leaf : ResourceHandler α).childOrLeaf key = PrefixTree.leaf := rfl
    rw [addDynamic]
    simp only [hconflict, hchild]
    exact ih _

/-- A descent that throws has met only nodes that were there before. -/
theorem addDynamic_atomic {order : NodeOrder α} {creator : α} {fullPath : Str}
    {t : ResourceHandler α} {keys : List Str} {fault : Fault}
    (h : (addDynamic order creator fullPath t keys).2 = .error fault) :
    (addDynamic order creator fullPath t keys).1 = t := by
  induction keys generalizing t fullPath with
  | nil => cases h
  | cons key keys ih =>
    rw [addDynamic] at h ⊢
    cases hconflict : conflict order t key with
    | some other => rfl
    | none =>
      simp only [hconflict] at h ⊢
      cases hc : t.child key with
      | none =>
        rw [PrefixTree.childOrLeaf, hc, Option.getD_none, addDynamic_leaf] at h
        cases h
      | some c =>
        have hchild : t.childOrLeaf key = c := by rw [PrefixTree.childOrLeaf, hc, Option.getD_some]
        rw [hchild] at h ⊢
        rw [ih h, PrefixTree.setChild_self hc]
        cases t
        rfl

/-- A call that throws leaves the router as it was. -/
theorem addHandler_of_error {order : NodeOrder α} {r : RouteHandler α} {path : Str} {creator : α}
    {fault : Fault} (h : (addHandler order r path creator).2 = .error fault) :
    (addHandler order r path creator).1 = r := by
  unfold addHandler at h ⊢
  by_cases hstatic : '{' ∉ path
  · rw [if_pos hstatic] at h
    cases h
  · rw [if_neg hstatic] at h ⊢
    simp only [addDynamic_atomic h]

/-- Only the successful calls count. -/
theorem registered_afterCalls {regs : List (Str × α)} {r : RouteHandler α}
    (hr : Registered regs r) (calls : List (NodeOrder α × Str × α)) :
    ∃ regs', Registered regs' (afterCalls r calls) := by
  induction calls generalizing regs r with
  | nil => exact ⟨regs, hr⟩
  | cons call calls ih =>
    obtain ⟨order, path, creator⟩ := call
    rw [afterCalls, List.foldl_cons]
    cases hadd : addHandler order r path creator with
    | mk r' result =>
      cases result with
      | ok done => exact ih (.add order path creator hr hadd)
      | error fault =>
        have herror : (addHandler order r path creator).2 = .error fault := by rw [hadd]
        have hsame := addHandler_of_error herror
        rw [hadd] at hsame
        rw [hsame]
        exact ih hr

theorem conflict_eq_some {order : NodeOrder α} {t : ResourceHandler α} (hd : t.Distinct)
    (hs : SingleParameter t) {key other : Str} (h : conflict order t key = some other) :
    isParameter key = true ∧ isParameter other = true ∧ other ≠ key ∧ t.Has [other] := by
  unfold conflict at h
  split at h
  · next hkey =>
    cases hf : findParameter order t with
    | none => simp [hf] at h
    | some found =>
      obtain ⟨name, c⟩ := found
      obtain ⟨hname, hc⟩ := (findParameter_eq_some_iff hd hs).mp hf
      simp only [hf, Option.ite_none_right_eq_some, Option.some.injEq] at h
      obtain ⟨hne, rfl⟩ := h
      exact ⟨hkey, hname, hne, PrefixTree.has_singleton_iff.mpr ⟨c, hc⟩⟩
  · cases h

/-- The level a descent stops at: the path has a parameter there and the tree another one. -/
def StopsAt (t : ResourceHandler α) (keys level : List Str) (key other : Str) : Prop :=
  level ++ [key] <+: keys ∧ t.Has (level ++ [other]) ∧ isParameter key = true ∧
    isParameter other = true ∧ other ≠ key

theorem addDynamic_error {order : NodeOrder α} {creator : α} {fullPath : Str}
    {t : ResourceHandler α} {keys : List Str} {fault : Fault} (hd : t.Distinct)
    (hs : SingleParameter t) (h : (addDynamic order creator fullPath t keys).2 = .error fault) :
    ∃ level key other, StopsAt t keys level key other ∧
      fault = .invalidArgument (conflictText (fullPath ++ level.flatten) key other) := by
  induction keys generalizing t fullPath with
  | nil => cases h
  | cons key keys ih =>
    rw [addDynamic] at h
    cases hconflict : conflict order t key with
    | some other =>
      simp only [hconflict, Except.error.injEq] at h
      obtain ⟨hkey, hother, hne, hhas⟩ := conflict_eq_some hd hs hconflict
      refine ⟨[], key, other, ⟨by simp, hhas, hkey, hother, hne⟩, ?_⟩
      rw [← h, List.flatten_nil, List.append_nil]
    | none =>
      simp only [hconflict] at h
      obtain ⟨level, k, other, ⟨hpre, hhas, hk⟩, hfault⟩ :=
        ih (PrefixTree.distinct_childOrLeaf hd key) (singleParameter_childOrLeaf hs key) h
      refine ⟨key :: level, k, other, ⟨List.cons_prefix_cons.mpr ⟨rfl, hpre⟩, ?_, hk⟩, ?_⟩
      · obtain hnil | hhas := (PrefixTree.has_childOrLeaf t key _).mp hhas
        · simp at hnil
        · exact hhas
      · rw [hfault, List.flatten_cons, List.append_assoc]

/-- After any calls, a call that throws names a level the tree had before, and the maps are
as they were. -/
theorem atomic_on_failure (calls : List (NodeOrder α × Str × α)) (order : NodeOrder α)
    (path : Str) (creator : α) {fault : Fault}
    (h : (addHandler order (afterCalls {} calls) path creator).2 = .error fault) :
    (addHandler order (afterCalls {} calls) path creator).1 = afterCalls {} calls ∧
      ∃ level key other, StopsAt (afterCalls {} calls).dynamicHandlers (splitString path '/')
          level key other ∧
        fault = .invalidArgument (conflictText ('/' :: level.flatten) key other) := by
  obtain ⟨regs, hregs⟩ := registered_afterCalls (@Registered.empty α) calls
  have hr := hregs.represents
  refine ⟨addHandler_of_error h, ?_⟩
  unfold addHandler at h
  split at h
  · cases h
  · have herror := addDynamic_error hr.distinct hr.single h
    simpa only [List.singleton_append] using herror

/-- Only the second level of the refused path conflicts. -/
theorem atomic_on_failure_second_level :
    (addHandler storedOrder twoHandlers "/a/{z}".toList 3).1 = twoHandlers :=
  (atomic_on_failure [(storedOrder, "/{x}/c".toList, 1), (storedOrder, "/a/{y}/d".toList, 2)]
    storedOrder "/a/{z}".toList 3 rfl).1

/-- Every key of the tree is a segment of a registered pattern. -/
theorem orderly_of_represents {regs : List (Str × α)} {r : RouteHandler α}
    (hr : Represents regs r) {node : ResourceHandler α}
    (hn : PrefixTree.Node r.dynamicHandlers node) : Orderly node := by
  obtain ⟨keys, hkeys⟩ := hn.exists_subtree hr.distinct
  have hhas : ∀ key ∈ node.children.map Prod.fst, r.dynamicHandlers.Has (keys ++ [key]) := by
    intro key hkey
    obtain ⟨⟨k, c⟩, hmem, rfl⟩ := List.mem_map.mp hkey
    have hc := PrefixTree.child_of_mem (hr.distinct keys node hkeys) hmem
    exact PrefixTree.has_of_child hkeys hc
  refine ⟨hr.distinct keys node hkeys, fun a ha b hb => ?_, fun key hkey => ?_⟩
  · exact hr.single keys a b (hhas a ha) (hhas b hb)
  · obtain ⟨pattern, hp, hpre⟩ := (hr.has_iff keys key).mp (hhas key hkey)
    obtain ⟨reg, -, -, rfl⟩ := mem_dynamicPatterns.mp hp
    have hmem : key ∈ splitString reg.1 '/' := hpre.subset (by simp)
    rw [splitString_eq_tokens] at hmem
    exact Lib.tokens_segments '/' reg.1 key hmem

theorem findParameter_order {t : ResourceHandler α} (hd : t.Distinct) (hs : SingleParameter t)
    (order order' : NodeOrder α) : findParameter order t = findParameter order' t := by
  refine Option.ext fun found => ?_
  rw [findParameter_eq_some_iff hd hs, findParameter_eq_some_iff hd hs]

theorem addDynamic_order {t : ResourceHandler α} (hd : t.Distinct) (hs : SingleParameter t)
    (order order' : NodeOrder α) (creator : α) (fullPath : Str) (keys : List Str) :
    addDynamic order creator fullPath t keys = addDynamic order' creator fullPath t keys := by
  induction keys generalizing t fullPath with
  | nil => rfl
  | cons key keys ih =>
    have hconflict : conflict order t key = conflict order' t key := by
      rw [conflict, conflict, findParameter_order hd hs order order']
    have hrest := ih (PrefixTree.distinct_childOrLeaf hd key) (singleParameter_childOrLeaf hs key)
      (fullPath ++ key)
    rw [addDynamic, addDynamic, hconflict, hrest]

theorem addHandler_order {regs : List (Str × α)} {r : RouteHandler α} (hr : Represents regs r)
    (order order' : NodeOrder α) (path : Str) (creator : α) :
    addHandler order r path creator = addHandler order' r path creator := by
  unfold addHandler
  rw [addDynamic_order hr.distinct hr.single order order']

theorem route_order {regs : List (Str × α)} {r : RouteHandler α} (hr : Represents regs r)
    (order order' : NodeOrder α) (request : Request) :
    route order r request = route order' r request := by
  have halike : Alike r.dynamicHandlers r.dynamicHandlers :=
    ⟨fun _ => Iff.rfl, fun _ => rfl, ⟨hr.distinct, hr.distinct⟩, hr.single, hr.single⟩
  unfold route
  rw [walk_alike halike order order']

/-- Whatever calls were made: every node has at most one parameter, no key and no segment is
empty, and neither scan depends on the order in which it meets the children. -/
theorem one_parameter_per_node (calls : List (NodeOrder α × Str × α)) :
    (∀ node, PrefixTree.Node (afterCalls {} calls).dynamicHandlers node → Orderly node) ∧
    (∀ path, ∀ key ∈ splitString path '/', key ≠ []) ∧
    ∀ order order' : NodeOrder α,
      (∀ request, route order (afterCalls {} calls) request =
        route order' (afterCalls {} calls) request) ∧
      ∀ path creator, addHandler order (afterCalls {} calls) path creator =
        addHandler order' (afterCalls {} calls) path creator := by
  obtain ⟨regs, hregs⟩ := registered_afterCalls (@Registered.empty α) calls
  have hr := hregs.represents
  refine ⟨fun node => orderly_of_represents hr, fun path key hkey => ?_, fun order order' =>
    ⟨route_order hr order order', addHandler_order hr order order'⟩⟩
  rw [splitString_eq_tokens] at hkey
  exact (Lib.tokens_segments '/' path key hkey).1

end RoutineHttp.RouterInvariant
