import RoutineHttp.RouterInvariant

/-! What a lookup binds. The walk binds the parameters it falls back to, one after the other
and first wins, whether or not it finds a handler in the end. -/
namespace RoutineHttp.PathBindings
open RouteHandler Lib Routing RouterInvariant
variable {α : Type}

/-- The parameters the walk falls back to, each with the segment it stands for. -/
def bindings (order : NodeOrder α) : ResourceHandler α → List Str → List (Str × Str)
  | _, [] => []
  | node, key :: keys =>
    match node.child key with
    | some child => bindings order child keys
    | none =>
      match findParameter order node with
      | none => []
      | some (name, child) => (parameterName name, key) :: bindings order child keys

/-- A segment of the form {name}. -/
def template (name : Str) : Str := '{' :: name ++ ['}']

/-- Every parameter of the pattern is bound to the segment at its position, and nothing else
is bound. -/
def BoundExactly (pattern segments : List Str) (params : Parameters) : Prop :=
  ∀ name value, params.params.lookup name = some value ↔
    ∃ i : Nat, pattern[i]? = some (template name) ∧ segments[i]? = some value

/-- No segment is spelled like the parameter it stands for, and a parameter that occurs twice
stands for one segment text. -/
def Unambiguous (pattern segments : List Str) : Prop :=
  (∀ (i : Nat) name, pattern[i]? = some (template name) → segments[i]? ≠ some (template name)) ∧
    ∀ (i j : Nat) name, pattern[i]? = some (template name) → pattern[j]? = some (template name) →
      segments[i]? = segments[j]?

/-- The walk has followed keys of the tree along the path so far and meets a node that has
this parameter, but not the next segment itself. -/
def Passes (t : ResourceHandler α) (path : List Str) (parameter segment : Str) : Prop :=
  ∃ keys front, Greedy t keys front ∧ front ++ [segment] <+: path ∧
    ¬ t.Has (keys ++ [segment]) ∧ t.Has (keys ++ [parameter]) ∧ isParameter parameter = true

theorem isParameter_template (name : Str) : isParameter (template name) = true := rfl

theorem parameterName_template (name : Str) : parameterName (template name) = name := by
  have hlen : sizeSub (template name).length 2 = name.length := by
    rw [sizeSub_of_le (by simp [template])]
    simp [template]
  rw [parameterName, hlen]
  simp [template]

theorem walk_params (order : NodeOrder α) (node : ResourceHandler α) (params : Parameters)
    (keys : List Str) : (walk order node params keys).2 =
      ⟨emplaceAll params.params (bindings order node keys)⟩ := by
  induction keys generalizing node params with
  | nil => rfl
  | cons key keys ih =>
    rw [walk, bindings]
    cases node.child key with
    | some child => exact ih child params
    | none =>
      cases findParameter order node with
      | none => rfl
      | some found => exact ih found.2 _

/-- A second walk finds its bindings made. -/
theorem walk_twice (order : NodeOrder α) (node : ResourceHandler α) (params : Parameters)
    (keys : List Str) : walk order node (walk order node params keys).2 keys =
      walk order node params keys := by
  refine Prod.ext (walk_fst_params order node _ _ keys) ?_
  simp only [walk_params, emplaceAll_emplaceAll]

/-- Routing a request again returns the same handler and binds nothing more. -/
theorem route_twice (order : NodeOrder α) (r : RouteHandler α) (request : Request) :
    route order r (route order r request).2 = route order r request := by
  cases hs : r.staticHandlers.lookup request.path with
  | some creator =>
    rw [route_of_static hs]
    exact route_of_static hs
  | none =>
    have hagain := @route_of_dynamic _ order r { request with pathParams :=
      (walk order r.dynamicHandlers request.pathParams (splitString request.path '/')).2 } hs
    rw [route_of_dynamic hs]
    refine hagain.trans ?_
    simp only [walk_twice]

/-- Along keys that lead to a handler, the bindings are those of the keys that differ from
their segment. -/
theorem mem_bindings_of_greedy {order : NodeOrder α} {t : ResourceHandler α}
    {keys path : List Str} (hd : t.Distinct) (hs : SingleParameter t) (hg : Greedy t keys path)
    {name value : Str} : (name, value) ∈ bindings order t path ↔
      ∃ (i : Nat) (parameter : Str), keys[i]? = some parameter ∧ path[i]? = some value ∧
        parameter ≠ value ∧ isParameter parameter = true ∧ parameterName parameter = name := by
  induction hg with
  | done t => simp [bindings]
  | @literal t c key keys path hc _ ih =>
    have hrest := ih (PrefixTree.distinct_child hd hc) (singleParameter_child hs hc)
    rw [bindings]
    simp only [hc, hrest]
    constructor
    · rintro ⟨i, h⟩
      exact ⟨i + 1, by simpa using h⟩
    · rintro ⟨i, parameter, hkey, hval, hne, h⟩
      cases i with
      | zero => exact absurd (Option.some.inj (hkey.symm.trans hval)) hne
      | succ i => exact ⟨i, parameter, by simpa using hkey, by simpa using hval, hne, h⟩
  | @parameter t c key found keys path hn hp hc _ ih =>
    have hrest := ih (PrefixTree.distinct_child hd hc) (singleParameter_child hs hc)
    have hfound : findParameter order t = some (found, c) :=
      (findParameter_eq_some_iff hd hs).mpr ⟨hp, hc⟩
    have hne : found ≠ key := fun he => by rw [he, hn] at hc; cases hc
    rw [bindings]
    simp only [hn, hfound, List.mem_cons, Prod.mk.injEq, hrest]
    constructor
    · rintro (⟨rfl, rfl⟩ | ⟨i, h⟩)
      · exact ⟨0, found, rfl, rfl, hne, hp, rfl⟩
      · exact ⟨i + 1, by simpa using h⟩
    · rintro ⟨i, parameter, hkey, hval, hne', h⟩
      cases i with
      | zero =>
        cases hkey
        cases hval
        exact Or.inl ⟨h.2.symm, rfl⟩
      | succ i => exact Or.inr ⟨i, parameter, by simpa using hkey, by simpa using hval, hne', h⟩

/-- First-wins insertion of the segments that differ from their parameter is exact when the
segments are unambiguous. -/
theorem firstBound_exactly_iff {pattern segments : List Str} {bs : List (Str × Str)}
    (hlength : pattern.length = segments.length)
    (hbs : ∀ name value, (name, value) ∈ bs ↔ ∃ i : Nat, pattern[i]? = some (template name) ∧
      segments[i]? = some value ∧ template name ≠ value) :
    (∀ name value, FirstBound bs name value ↔
      ∃ i : Nat, pattern[i]? = some (template name) ∧ segments[i]? = some value) ↔
        Unambiguous pattern segments := by
  have hsegment : ∀ {i : Nat} {name}, pattern[i]? = some (template name) →
      ∃ value, segments[i]? = some value := by
    intro i name hi
    have hlt := (List.getElem?_eq_some_iff.mp hi).1
    exact ⟨segments[i], List.getElem?_eq_getElem (hlength ▸ hlt)⟩
  constructor
  · refine fun hexact => ⟨fun i name hi hsame => ?_, fun i j name hi hj => ?_⟩
    · obtain ⟨-, -, -, hne⟩ := (hbs _ _).mp ((hexact name _).mpr ⟨i, hi, hsame⟩).mem
      exact hne rfl
    · obtain ⟨v, hv⟩ := hsegment hi
      obtain ⟨w, hw⟩ := hsegment hj
      have hfirst := (hexact name v).mpr ⟨i, hi, hv⟩
      rw [hv, hw, hfirst.unique ((hexact name w).mpr ⟨j, hj, hw⟩)]
  · rintro ⟨hdiffer, hagree⟩ name value
    constructor
    · intro hfirst
      obtain ⟨i, hi, hval, -⟩ := (hbs _ _).mp hfirst.mem
      exact ⟨i, hi, hval⟩
    · rintro ⟨i, hi, hval⟩
      have hne : template name ≠ value := fun he => hdiffer i name hi (he ▸ hval)
      obtain ⟨first, hfirst⟩ := exists_firstBound ((hbs _ _).mpr ⟨i, hi, hval, hne⟩)
      obtain ⟨j, hj, hfirstval, -⟩ := (hbs _ _).mp hfirst.mem
      have hsame := hagree i j name hi hj
      rw [hval, hfirstval] at hsame
      rwa [Option.some.inj hsame]

/-- The handler of a dynamic registration is found at the end of its pattern. -/
theorem greedy_of_route {path : α → Str} {handlers : List α} {r : RouteHandler α}
    (hr : Represents (handlers.map fun handler => (path handler, handler)) r)
    {order : NodeOrder α} {request : Request} {handler : α}
    (hroute : (route order r request).1 = some handler) (hdyn : isStatic (path handler) = false) :
    handler ∈ handlers ∧ r.staticHandlers.lookup request.path = none ∧
      Greedy r.dynamicHandlers (splitString (path handler) '/') (splitString request.path '/') := by
  have hpath : ∀ {pattern creator},
      (pattern, creator) ∈ (handlers.map fun handler => (path handler, handler)) →
        creator ∈ handlers ∧ path creator = pattern := by
    intro pattern creator hmem
    obtain ⟨other, hother, heq⟩ := List.mem_map.mp hmem
    cases heq
    exact ⟨hother, rfl⟩
  rw [route_fst] at hroute
  cases hl : r.staticHandlers.lookup request.path with
  | some creator =>
    rw [hl] at hroute
    cases hroute
    obtain ⟨pattern, hmem, hstatic, -⟩ := hr.static_eq_some hl
    rw [(hpath hmem).2, hstatic] at hdyn
    cases hdyn
  | none =>
    rw [hl, Option.none_or] at hroute
    obtain ⟨keys, hg, hf⟩ := (walk_eq_some_iff hr.distinct hr.single _ _ _).mp hroute
    rw [hr.dynamic] at hf
    obtain ⟨pattern, hmem, haccept⟩ := latest_eq_some hf
    simp only [Bool.and_eq_true, beq_iff_eq] at haccept
    obtain ⟨hhandler, rfl⟩ := hpath hmem
    rw [← haccept.2] at hg
    exact ⟨hhandler, rfl, hg⟩

/-- The parameters of a request routed to a dynamic handler are bound exactly when every
segment tells which value each name has. -/
theorem bound_exactly_iff {path : α → Str} {handlers : List α} {r : RouteHandler α}
    (h : Registered (handlers.map fun handler => (path handler, handler)) r)
    (hform : ∀ handler ∈ handlers, ∀ segment ∈ splitString (path handler) '/',
      isParameter segment = true → ∃ name, segment = template name)
    (order : NodeOrder α) {request : Request} (hempty : request.pathParams = {}) {handler : α}
    (hroute : (route order r request).1 = some handler) (hdyn : isStatic (path handler) = false) :
    BoundExactly (splitString (path handler) '/') (splitString request.path '/')
        (route order r request).2.pathParams ↔
      Unambiguous (splitString (path handler) '/') (splitString request.path '/') := by
  obtain ⟨hhandler, hl, hg⟩ := greedy_of_route h.represents hroute hdyn
  have hlookup : ∀ name value, (route order r request).2.pathParams.params.lookup name =
      some value ↔ FirstBound (bindings order r.dynamicHandlers (splitString request.path '/'))
        name value := by
    intro name value
    rw [← lookup_emplaceAll_empty]
    rw [route_of_dynamic hl]
    simp only [walk_params, hempty]
  have hmem : ∀ name value,
      (name, value) ∈ bindings order r.dynamicHandlers (splitString request.path '/') ↔
        ∃ i : Nat, (splitString (path handler) '/')[i]? = some (template name) ∧
          (splitString request.path '/')[i]? = some value ∧ template name ≠ value := by
    intro name value
    rw [mem_bindings_of_greedy h.represents.distinct h.represents.single hg]
    constructor
    · rintro ⟨i, parameter, hkey, hval, hne, hp, rfl⟩
      obtain ⟨name, rfl⟩ := hform handler hhandler parameter (List.mem_of_getElem? hkey) hp
      rw [parameterName_template]
      exact ⟨i, hkey, hval, hne⟩
    · rintro ⟨i, hkey, hval, hne⟩
      exact ⟨i, _, hkey, hval, hne, rfl, parameterName_template name⟩
  have hlength := ((greedy_iff _ _ _).mp hg).2.1.length_eq
  simp only [BoundExactly, hlookup]
  exact firstBound_exactly_iff hlength hmem

/-- One request segment is spelled like the parameter, so it is taken as a literal. -/
theorem spelled_like_parameter_unbound : ∃ request,
    Request.ofRaw "GET /{x}/c HTTP/1.1\r\n".toList = .ok request ∧
    Registered [("/{x}/c".toList, 1)] oneHandler ∧ request.pathParams = {} ∧
    (route storedOrder oneHandler request).1 = some 1 ∧
    ¬ BoundExactly (splitString "/{x}/c".toList '/') (splitString request.path '/')
      (route storedOrder oneHandler request).2.pathParams := by
  refine ⟨requestFor "{x}/c".toList, rfl, registered_oneHandler, rfl, rfl, fun h => ?_⟩
  have hbound := (h "x".toList "{x}".toList).mpr ⟨0, rfl, rfl⟩
  cases hbound

theorem bound_exactly_iff_oneHandler :
    BoundExactly (splitString "/{x}/c".toList '/') (splitString "b/c".toList '/')
        (route storedOrder oneHandler (requestFor "b/c".toList)).2.pathParams ↔
      Unambiguous (splitString "/{x}/c".toList '/') (splitString "b/c".toList '/') := by
  have hform : ∀ handler ∈ [1], ∀ segment ∈ splitString "/{x}/c".toList '/',
      isParameter segment = true → ∃ name, segment = template name := by
    intro handler _ segment hsegment hp
    obtain rfl | hsegment := List.mem_cons.mp hsegment
    · exact ⟨"x".toList, rfl⟩
    · obtain rfl := List.mem_singleton.mp hsegment
      cases hp
  exact @bound_exactly_iff Nat (fun _ => "/{x}/c".toList) [1] oneHandler registered_oneHandler hform
    storedOrder (requestFor "b/c".toList) rfl 1 rfl rfl

theorem greedy_cons {t : ResourceHandler α} {k key : Str} {keys path : List Str} :
    Greedy t (k :: keys) (key :: path) ↔ ∃ c, t.child k = some c ∧
      (k = key ∨ t.child key = none ∧ isParameter k = true) ∧ Greedy c keys path := by
  constructor
  · intro h
    cases h with
    | literal hc hg => exact ⟨_, hc, Or.inl rfl, hg⟩
    | parameter hn hp hc hg => exact ⟨_, hc, Or.inr ⟨hn, hp⟩, hg⟩
  · rintro ⟨c, hc, rfl | ⟨hn, hp⟩, hg⟩
    · exact .literal hc hg
    · exact .parameter hn hp hc hg

/-- A parameter is passed at the first segment or further down. -/
theorem passes_cons {t : ResourceHandler α} {key parameter segment : Str} {path : List Str} :
    Passes t (key :: path) parameter segment ↔
      (segment = key ∧ t.child key = none ∧ t.Has [parameter] ∧ isParameter parameter = true) ∨
        ∃ k c, t.child k = some c ∧ (k = key ∨ t.child key = none ∧ isParameter k = true) ∧
          Passes c path parameter segment := by
  constructor
  · rintro ⟨keys, front, hg, hpre, hno, hhas, hp⟩
    cases front with
    | nil =>
      cases hg
      obtain ⟨rfl, -⟩ := List.cons_prefix_cons.mp hpre
      exact Or.inl ⟨rfl, not_has_iff_child_none.mp hno, hhas, hp⟩
    | cons head front =>
      obtain ⟨rfl, hrest⟩ := List.cons_prefix_cons.mp hpre
      cases keys with
      | nil => cases hg
      | cons k keys =>
        obtain ⟨c, hc, hstep, hg⟩ := greedy_cons.mp hg
        rw [List.cons_append, PrefixTree.has_cons hc] at hno hhas
        exact Or.inr ⟨k, c, hc, hstep, keys, front, hg, hrest, hno, hhas, hp⟩
  · rintro (⟨rfl, hn, hhas, hp⟩ | ⟨k, c, hc, hstep, keys, front, hg, hpre, hno, hhas, hp⟩)
    · exact ⟨[], [], .done t, by simp, not_has_iff_child_none.mpr hn, hhas, hp⟩
    · refine ⟨k :: keys, key :: front, greedy_cons.mpr ⟨c, hc, hstep, hg⟩,
        List.cons_prefix_cons.mpr ⟨rfl, hpre⟩, ?_, ?_, hp⟩
      · rwa [List.cons_append, PrefixTree.has_cons hc]
      · rwa [List.cons_append, PrefixTree.has_cons hc]

/-- The walk binds the parameters it passes, wherever it ends. -/
theorem mem_bindings_iff {order : NodeOrder α} {t : ResourceHandler α} (hd : t.Distinct)
    (hs : SingleParameter t) {path : List Str} {name value : Str} :
    (name, value) ∈ bindings order t path ↔
      ∃ parameter, Passes t path parameter value ∧ parameterName parameter = name := by
  induction path generalizing t with
  | nil => simp [bindings, Passes]
  | cons key path ih =>
    rw [bindings]
    simp only [passes_cons]
    cases hc : t.child key with
    | some c =>
      refine (ih (PrefixTree.distinct_child hd hc) (singleParameter_child hs hc)).trans ?_
      constructor
      · rintro ⟨parameter, hpass, rfl⟩
        exact ⟨parameter, Or.inr ⟨key, c, hc, Or.inl rfl, hpass⟩, rfl⟩
      · rintro ⟨parameter, ⟨-, hn, -⟩ | ⟨k, d, hk, rfl | ⟨hn, -⟩, hpass⟩, rfl⟩
        · cases hn
        · rw [hc] at hk
          cases hk
          exact ⟨parameter, hpass, rfl⟩
        · cases hn
    | none =>
      cases hf : findParameter order t with
      | none =>
        have hnone := (findParameter_eq_none_iff hd hs).mp hf
        refine iff_of_false List.not_mem_nil ?_
        rintro ⟨parameter, ⟨-, -, hhas, hp⟩ | ⟨k, c, hk, rfl | ⟨-, hp⟩, -⟩, -⟩
        · exact not_has_iff_child_none.mpr (hnone parameter hp) hhas
        · rw [hc] at hk; cases hk
        · rw [hnone k hp] at hk; cases hk
      | some found =>
        obtain ⟨parameter, c⟩ := found
        obtain ⟨hp, hcp⟩ := (findParameter_eq_some_iff hd hs).mp hf
        have hhas : t.Has [parameter] := PrefixTree.has_singleton_iff.mpr ⟨c, hcp⟩
        have hsame : ∀ other, t.Has [other] → isParameter other = true → other = parameter :=
          fun other ho hpo => hs [] other parameter ho hhas hpo hp
        simp only [List.mem_cons, Prod.mk.injEq,
          ih (PrefixTree.distinct_child hd hcp) (singleParameter_child hs hcp)]
        constructor
        · rintro (⟨rfl, rfl⟩ | ⟨other, hother, rfl⟩)
          · exact ⟨parameter, Or.inl ⟨rfl, trivial, hhas, hp⟩, rfl⟩
          · exact ⟨other, Or.inr ⟨parameter, c, hcp, Or.inr ⟨trivial, hp⟩, hother⟩, rfl⟩
        · rintro ⟨other, ⟨rfl, -, ho, hpo⟩ | ⟨k, d, hk, hstep, hother⟩, rfl⟩
          · exact Or.inl ⟨by rw [hsame other ho hpo], rfl⟩
          · obtain rfl | ⟨-, hpk⟩ := hstep
            · rw [hc] at hk; cases hk
            · obtain rfl := hsame k (PrefixTree.has_singleton_iff.mpr ⟨d, hk⟩) hpk
              rw [hcp] at hk
              cases hk
              exact Or.inr ⟨other, hother, rfl⟩

/-- A lookup that fails leaves the path parameters as they were exactly when every parameter
it passes has its name bound before. -/
theorem failed_untouched_iff (calls : List (NodeOrder α × Str × α)) (order : NodeOrder α)
    (request : Request) (hfail : (route order (afterCalls {} calls) request).1 = none) :
    (route order (afterCalls {} calls) request).2.pathParams = request.pathParams ↔
      ∀ parameter segment, Passes (afterCalls {} calls).dynamicHandlers
        (splitString request.path '/') parameter segment →
          request.pathParams.contains (parameterName parameter) = true := by
  obtain ⟨regs, hregs⟩ := registered_afterCalls (@Registered.empty α) calls
  have hr := hregs.represents
  generalize afterCalls {} calls = r at hr hfail
  cases hl : r.staticHandlers.lookup request.path with
  | some creator =>
    rw [route_of_static hl] at hfail
    cases hfail
  | none =>
    have hparams : (route order r request).2.pathParams = request.pathParams ↔
        emplaceAll request.pathParams.params (bindings order r.dynamicHandlers
          (splitString request.path '/')) = request.pathParams.params := by
      rw [route_of_dynamic hl]
      simp only [walk_params]
      exact ⟨fun h => congrArg Parameters.params h, fun h => by rw [h]⟩
    rw [hparams, emplaceAll_eq_self_iff]
    simp only [Parameters.contains, decide_eq_true_eq]
    constructor
    · intro h parameter segment hpass
      exact h (parameterName parameter, segment)
        ((mem_bindings_iff hr.distinct hr.single).mpr ⟨parameter, hpass, rfl⟩)
    · rintro h ⟨name, value⟩ hmem
      obtain ⟨parameter, hpass, rfl⟩ := (mem_bindings_iff hr.distinct hr.single).mp hmem
      exact h parameter value hpass

/-- The first segment is bound although the second one matches nothing. -/
theorem failed_lookup_binds : ∃ request,
    Request.ofRaw "GET /a/b HTTP/1.1\r\n".toList = .ok request ∧
    (route storedOrder (afterCalls {} [(storedOrder, "/{x}/c".toList, 1)]) request).1 = none ∧
    (route storedOrder (afterCalls {} [(storedOrder, "/{x}/c".toList, 1)]) request).2.pathParams ≠
      request.pathParams := by
  refine ⟨requestFor "a/b".toList, rfl, rfl, fun h => ?_⟩
  exact absurd (congrArg Parameters.size h) (by decide)

theorem failed_untouched_iff_oneHandler :
    (route storedOrder (afterCalls {} [(storedOrder, "/{x}/c".toList, 1)])
        (requestFor "a/b".toList)).2.pathParams = (requestFor "a/b".toList).pathParams ↔
      ∀ parameter segment, Passes
        (afterCalls {} [(storedOrder, "/{x}/c".toList, 1)]).dynamicHandlers
        (splitString "a/b".toList '/') parameter segment →
          (requestFor "a/b".toList).pathParams.contains (parameterName parameter) = true :=
  failed_untouched_iff _ storedOrder (requestFor "a/b".toList) rfl

end RoutineHttp.PathBindings
