import RoutineHttp.Routing

/-! Registration in any order. Whether a list of handlers can be registered, and what the
router then does, is read off the patterns alone. -/
namespace RoutineHttp.RegistrationOrder
open RouteHandler Lib Routing
variable {α : Type}

/-- Calls of `add_handler`, each with the order in which its scans meet the nodes, up to the
first one that throws. -/
def addHandlers (r : RouteHandler α) : List (NodeOrder α × Str × α) → Except Fault (RouteHandler α)
  | [] => .ok r
  | (order, path, creator) :: calls =>
    match addHandler order r path creator with
    | (_, .error fault) => .error fault
    | (r', .ok ()) => addHandlers r' calls

/-- The calls make these registrations, in some order. -/
def Makes (calls : List (NodeOrder α × Str × α)) (regs : List (Str × α)) : Prop :=
  (calls.map Prod.snd).Perm regs

/-- In every order some call throws. -/
def RefusedAlways (regs : List (Str × α)) : Prop :=
  ∀ calls, Makes calls regs → ∃ fault, addHandlers {} calls = .error fault

/-- Every order succeeds, and all routers send a request to one registration with the same
path parameters. -/
def AcceptedAlike (regs : List (Str × α)) : Prop :=
  (∀ calls, Makes calls regs → ∃ r, addHandlers {} calls = .ok r) ∧
  ∀ calls calls' r r', Makes calls regs → Makes calls' regs → addHandlers {} calls = .ok r →
    addHandlers {} calls' = .ok r' → ∀ (order order' : NodeOrder α) (request : Request),
      (route order r request).1 = (route order' r' request).1 ∧
      (route order r request).2.pathParams = (route order' r' request).2.pathParams

/-- No two parameters on one level. -/
def Compatible (patterns : List (List Str)) : Prop :=
  ∀ p ∈ patterns, ∀ q ∈ patterns, ∀ level a b, level ++ [a] <+: p → level ++ [b] <+: q →
    isParameter a = true → isParameter b = true → b = a

/-- The parameters on the way of the keys are the ones the tree has there. -/
def Admits (t : ResourceHandler α) (keys : List Str) : Prop :=
  ∀ level a b, level ++ [a] <+: keys → t.Has (level ++ [b]) →
    isParameter a = true → isParameter b = true → b = a

theorem admits_cons {t : ResourceHandler α} {key : Str} {keys : List Str} :
    Admits t (key :: keys) ↔
      (isParameter key = true → ∀ other, isParameter other = true → t.Has [other] → other = key) ∧
        Admits (t.childOrLeaf key) keys := by
  constructor
  · intro h
    refine ⟨fun hp other ho hhas => h [] key other (by simp) hhas hp ho, ?_⟩
    intro level a b hpre hhas
    obtain hnil | hhas := (PrefixTree.has_childOrLeaf t key _).mp hhas
    · simp at hnil
    · exact h (key :: level) a b (List.cons_prefix_cons.mpr ⟨rfl, hpre⟩) hhas
  · rintro ⟨hfirst, hrest⟩ level a b hpre hhas ha hb
    cases level with
    | nil =>
      obtain ⟨rfl, -⟩ := List.cons_prefix_cons.mp hpre
      exact hfirst ha b hb hhas
    | cons k level =>
      obtain ⟨rfl, hpre'⟩ := List.cons_prefix_cons.mp hpre
      exact hrest level a b hpre' ((PrefixTree.has_childOrLeaf t k _).mpr (Or.inr hhas)) ha hb

/-- The descent of `add_handler` throws exactly when it meets another parameter. -/
theorem addDynamic_ok_iff {order : NodeOrder α} {creator : α} {fullPath : Str}
    {t : ResourceHandler α} {keys : List Str} (hd : t.Distinct) (hs : SingleParameter t) :
    (addDynamic order creator fullPath t keys).2 = .ok () ↔ Admits t keys := by
  induction keys generalizing t fullPath with
  | nil => simp [addDynamic, Admits]
  | cons key keys ih =>
    have hrest := @ih (fullPath ++ key) _ (PrefixTree.distinct_childOrLeaf hd key)
      (singleParameter_childOrLeaf hs key)
    have hfirst := @conflict_eq_none_iff _ order t hd hs key
    rw [admits_cons, ← hfirst, ← hrest, addDynamic]
    cases conflict order t key with
    | none => simp
    | some other => simp

theorem compatible_append {patterns : List (List Str)} (hc : Compatible patterns)
    (keys : List Str) : Compatible (patterns ++ [keys]) ↔
      ∀ p ∈ patterns, ∀ level a b, level ++ [a] <+: keys → level ++ [b] <+: p →
        isParameter a = true → isParameter b = true → b = a := by
  constructor
  · exact fun h p hp => h keys (by simp) p (List.mem_append_left _ hp)
  · intro h p hp q hq level a b hpa hqb ha hb
    obtain hp | hp := List.mem_append.mp hp <;> obtain hq | hq := List.mem_append.mp hq
    · exact hc p hp q hq level a b hpa hqb ha hb
    · rw [List.mem_singleton.mp hq] at hqb
      exact (h p hp level b a hqb hpa hb ha).symm
    · rw [List.mem_singleton.mp hp] at hpa
      exact h q hq level a b hpa hqb ha hb
    · rw [List.mem_singleton.mp hp] at hpa
      rw [List.mem_singleton.mp hq] at hqb
      have heq := (List.prefix_of_prefix_length_le hpa hqb (by simp)).eq_of_length (by simp)
      simpa using heq.symm

/-- In a router that holds compatible patterns a call succeeds exactly when they stay
compatible. -/
theorem addHandler_ok_iff {regs : List (Str × α)} {r : RouteHandler α} (hr : Represents regs r)
    (hc : Compatible (dynamicPatterns regs)) {order : NodeOrder α} {path : Str} {creator : α} :
    (addHandler order r path creator).2 = .ok () ↔
      Compatible (dynamicPatterns (regs ++ [(path, creator)])) := by
  rw [dynamicPatterns_append]
  unfold addHandler
  by_cases hstatic : '{' ∉ path
  · rw [if_pos hstatic, if_pos (isStatic_iff.mpr hstatic), List.append_nil]
    exact iff_of_true rfl hc
  · have hdyn : ¬ isStatic path = true := fun h => hstatic (isStatic_iff.mp h)
    rw [if_neg hstatic, if_neg hdyn, compatible_append hc]
    refine (addDynamic_ok_iff hr.distinct hr.single).trans ?_
    constructor
    · intro h p hp level a b hpa hpb
      exact h level a b hpa ((hr.has_iff level b).mpr ⟨p, hp, hpb⟩)
    · intro h level a b hpa hhas
      obtain ⟨p, hp, hpb⟩ := (hr.has_iff level b).mp hhas
      exact h p hp level a b hpa hpb

theorem Compatible.mono {patterns more : List (List Str)} (h : Compatible more)
    (hsub : ∀ p ∈ patterns, p ∈ more) : Compatible patterns :=
  fun p hp q hq => h p (hsub p hp) q (hsub q hq)

/-- Calls succeed exactly when all patterns together are compatible, and then the router
holds all registrations. -/
theorem addHandlers_represents {regs : List (Str × α)} {r : RouteHandler α}
    {calls : List (NodeOrder α × Str × α)} (hr : Represents regs r)
    (hc : Compatible (dynamicPatterns regs)) :
    ((∃ r', addHandlers r calls = .ok r') ↔
      Compatible (dynamicPatterns (regs ++ calls.map Prod.snd))) ∧
    ∀ r', addHandlers r calls = .ok r' → Represents (regs ++ calls.map Prod.snd) r' := by
  induction calls generalizing regs r with
  | nil =>
    rw [List.map_nil, List.append_nil]
    refine ⟨iff_of_true ⟨r, rfl⟩ hc, fun r' h => ?_⟩
    cases h
    exact hr
  | cons call calls ih =>
    obtain ⟨order, path, creator⟩ := call
    have hok := @addHandler_ok_iff _ regs r hr hc order path creator
    have happend : regs ++ ((order, path, creator) :: calls).map Prod.snd =
        regs ++ [(path, creator)] ++ calls.map Prod.snd := by simp
    rw [happend, addHandlers]
    cases hadd : addHandler order r path creator with
    | mk r₁ result =>
      rw [hadd] at hok
      cases result with
      | error fault =>
        have hnot : ¬ Compatible (dynamicPatterns (regs ++ [(path, creator)])) :=
          fun h => by simpa using hok.mpr h
        refine ⟨iff_of_false (fun h => by simp at h) fun h => hnot ?_, fun r' h => by simp at h⟩
        refine h.mono fun p hp => ?_
        obtain ⟨reg, hreg, hp⟩ := mem_dynamicPatterns.mp hp
        exact mem_dynamicPatterns.mpr ⟨reg, List.mem_append_left _ hreg, hp⟩
      | ok _ => exact ih (represents_add hr hadd) (hok.mp rfl)

/-- Two trees that hold the same keys and values. -/
structure Alike (s t : ResourceHandler α) : Prop where
  has : ∀ keys, s.Has keys ↔ t.Has keys
  find : ∀ keys, s.find keys = t.find keys
  distinct : s.Distinct ∧ t.Distinct
  single : SingleParameter s ∧ SingleParameter t

theorem Alike.child_none {s t : ResourceHandler α} (h : Alike s t) (key : Str) :
    s.child key = none ↔ t.child key = none := by
  rw [← not_has_iff_child_none, ← not_has_iff_child_none, h.has]

theorem Alike.child {s t c d : ResourceHandler α} (h : Alike s t) {key : Str}
    (hc : s.child key = some c) (hd : t.child key = some d) : Alike c d where
  has keys := by rw [← PrefixTree.has_cons hc, ← PrefixTree.has_cons hd, h.has]
  find keys := by rw [← PrefixTree.find_cons hc, ← PrefixTree.find_cons hd, h.find]
  distinct := ⟨PrefixTree.distinct_child h.distinct.1 hc, PrefixTree.distinct_child h.distinct.2 hd⟩
  single := ⟨singleParameter_child h.single.1 hc, singleParameter_child h.single.2 hd⟩

/-- The parameter of a level is the same in both, whatever the order of the scan. -/
theorem Alike.findParameter {s t : ResourceHandler α} (h : Alike s t) (order order' : NodeOrder α) :
    (findParameter order s = none ∧ findParameter order' t = none) ∨
      ∃ name c d, findParameter order s = some (name, c) ∧ findParameter order' t = some (name, d) ∧
        Alike c d := by
  cases hs : RouteHandler.findParameter order s with
  | none =>
    have hnone := (findParameter_eq_none_iff h.distinct.1 h.single.1).mp hs
    refine Or.inl ⟨rfl, (findParameter_eq_none_iff h.distinct.2 h.single.2).mpr fun name hp => ?_⟩
    exact (h.child_none name).mp (hnone name hp)
  | some found =>
    obtain ⟨name, c⟩ := found
    obtain ⟨hp, hc⟩ := (findParameter_eq_some_iff h.distinct.1 h.single.1).mp hs
    cases hd : t.child name with
    | none => rw [(h.child_none name).mpr hd] at hc; cases hc
    | some d =>
      exact Or.inr ⟨name, c, d, rfl,
        (findParameter_eq_some_iff h.distinct.2 h.single.2).mpr ⟨hp, hd⟩, h.child hc hd⟩

theorem walk_alike {s t : ResourceHandler α} (h : Alike s t) (order order' : NodeOrder α)
    (params : Parameters) (keys : List Str) : walk order s params keys = walk order' t params keys := by
  induction keys generalizing s t params with
  | nil =>
    have hvalue : s.value = t.value := h.find []
    rw [walk, walk, hvalue]
  | cons key keys ih =>
    rw [walk, walk]
    cases hc : s.child key with
    | some c =>
      cases hd : t.child key with
      | some d => exact ih (h.child hc hd) params
      | none => rw [(h.child_none key).mpr hd] at hc; cases hc
    | none =>
      rw [(h.child_none key).mp hc]
      obtain ⟨hs, ht⟩ | ⟨name, c, d, hs, ht, hcd⟩ := h.findParameter order order'
      · simp only [hs, ht]
      · simp only [hs, ht]
        exact ih hcd _

/-- With one accepted registration at most, the latest one is the only one. -/
theorem latest_eq_some_iff {accept : Str → Bool} {regs : List (Str × α)} {creator : α}
    (hone : ∀ p ∈ regs, ∀ q ∈ regs, accept p.1 = true → accept q.1 = true → p = q) :
    latest accept regs = some creator ↔ ∃ path, (path, creator) ∈ regs ∧ accept path := by
  refine ⟨latest_eq_some, ?_⟩
  rintro ⟨path, hmem, haccept⟩
  obtain ⟨other, hother⟩ := Option.isSome_iff_exists.mp
    (latest_isSome_iff.mpr ⟨(path, creator), hmem, haccept⟩)
  obtain ⟨path', hmem', haccept'⟩ := latest_eq_some hother
  have heq := hone _ hmem _ hmem' haccept haccept'
  rw [hother, (Prod.mk.inj heq).2]

theorem latest_perm {accept : Str → Bool} {regs regs' : List (Str × α)} (hp : regs.Perm regs')
    (hone : ∀ p ∈ regs, ∀ q ∈ regs, accept p.1 = true → accept q.1 = true → p = q) :
    latest accept regs = latest accept regs' := by
  have hone' : ∀ p ∈ regs', ∀ q ∈ regs', accept p.1 = true → accept q.1 = true → p = q :=
    fun p hpm q hqm => hone p (hp.mem_iff.mpr hpm) q (hp.mem_iff.mpr hqm)
  refine Option.ext fun creator => ?_
  rw [latest_eq_some_iff hone, latest_eq_some_iff hone']
  simp only [hp.mem_iff]

theorem compatible_perm {regs regs' : List (Str × α)} (hp : regs.Perm regs') :
    Compatible (dynamicPatterns regs) ↔ Compatible (dynamicPatterns regs') := by
  have hmem : ∀ pattern, pattern ∈ dynamicPatterns regs ↔ pattern ∈ dynamicPatterns regs' := by
    intro pattern
    simp only [mem_dynamicPatterns, hp.mem_iff]
  exact ⟨fun h => h.mono fun p hm => (hmem p).mpr hm, fun h => h.mono fun p hm => (hmem p).mp hm⟩

/-- Routers that hold the same registrations route every request alike. -/
theorem route_perm {regs regs' : List (Str × α)} {r r' : RouteHandler α} (hr : Represents regs r)
    (hr' : Represents regs' r') (hp : regs.Perm regs')
    (hdistinct : (regs.map fun reg => formatPath reg.1).Nodup) (order order' : NodeOrder α)
    (request : Request) : route order r request = route order' r' request := by
  have hinj : ∀ p ∈ regs, ∀ q ∈ regs, formatPath p.1 = formatPath q.1 → p = q :=
    fun p hpm q hqm => List.inj_on_of_nodup_map hdistinct hpm hqm
  have hstatic : r.staticHandlers.lookup request.path = r'.staticHandlers.lookup request.path := by
    rw [hr.static, hr'.static]
    refine latest_perm hp fun p hpm q hqm ha hb => hinj p hpm q hqm ?_
    simp only [Bool.and_eq_true, beq_iff_eq] at ha hb
    rw [ha.2, hb.2]
  have halike : Alike r.dynamicHandlers r'.dynamicHandlers := by
    refine ⟨fun keys => ?_, fun keys => ?_, ⟨hr.distinct, hr'.distinct⟩, hr.single, hr'.single⟩
    · simp only [hr.nodes, hr'.nodes, mem_dynamicPatterns, hp.mem_iff]
    · rw [hr.dynamic, hr'.dynamic]
      refine latest_perm hp fun p hpm q hqm ha hb => hinj p hpm q hqm ?_
      simp only [Bool.and_eq_true, beq_iff_eq] at ha hb
      rw [formatPath_eq_iff, ha.2, hb.2]
  unfold route
  rw [hstatic, walk_alike halike order order']

/-- Handlers with distinct normalised paths are refused in every order, or accepted in every
order and then routed to alike. -/
theorem registration_order (regs : List (Str × α))
    (hdistinct : (regs.map fun reg => formatPath reg.1).Nodup) :
    RefusedAlways regs ∨ AcceptedAlike regs := by
  have hempty : Compatible (dynamicPatterns ([] : List (Str × α))) :=
    fun p hp => absurd hp (by simp [dynamicPatterns])
  have hadd : ∀ calls, Makes calls regs →
      ((∃ r, addHandlers {} calls = .ok r) ↔ Compatible (dynamicPatterns regs)) := by
    intro calls hp
    rw [(addHandlers_represents represents_empty hempty).1, List.nil_append, compatible_perm hp]
  by_cases hc : Compatible (dynamicPatterns regs)
  · refine Or.inr ⟨fun calls hp => (hadd calls hp).mpr hc, ?_⟩
    intro calls calls' r r' hp hp' hr hr' order order' request
    have hrep := (addHandlers_represents represents_empty hempty).2 r hr
    have hrep' := (addHandlers_represents represents_empty hempty).2 r' hr'
    rw [List.nil_append] at hrep hrep'
    have hnodup := ((hp.map fun reg => formatPath reg.1).nodup_iff).mpr hdistinct
    rw [route_perm hrep hrep' (hp.trans hp'.symm) hnodup order order' request]
    exact ⟨rfl, rfl⟩
  · refine Or.inl fun calls hp => ?_
    cases hresult : addHandlers {} calls with
    | error fault => exact ⟨fault, rfl⟩
    | ok r => exact absurd ((hadd calls hp).mp ⟨r, hresult⟩) hc

theorem registration_order_two :
    RefusedAlways [("/a/{x}".toList, 0), ("/b".toList, 1)] ∨
      AcceptedAlike [("/a/{x}".toList, 0), ("/b".toList, 1)] :=
  registration_order _ (by decide)

end RoutineHttp.RegistrationOrder
