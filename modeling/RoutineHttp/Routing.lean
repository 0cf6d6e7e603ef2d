import RoutineHttp.RouteHandler

/-! Routing against the registered patterns. The tree built by the registrations is
read back as a set of patterns, and the literal-first walk as a condition on them. -/
namespace RoutineHttp.Routing
open RouteHandler Lib
variable {α : Type}

/-- A registration is static when its path has no brace at all. -/
def isStatic (path : Str) : Bool := !path.contains '{'

def SegmentMatches (pattern segment : Str) : Prop := isParameter pattern = true ∨ pattern = segment

/-- Segment by segment, empty segments ignored. -/
def Matches (pattern path : Str) : Prop :=
  List.Forall₂ SegmentMatches (splitString pattern '/') (splitString path '/')

/-- At some segment where the pattern has not got the segment of the path, another
pattern with the same segments before has got it literally. -/
def Shadowed (patterns : List (List Str)) (pattern path : List Str) : Prop :=
  ∃ i : Fin path.length, pattern[i.val]? ≠ some path[i.val] ∧
    ∃ other ∈ patterns, pattern.take i ++ [path[i.val]] <+: other

instance (patterns : List (List Str)) (pattern path : List Str) :
    Decidable (Shadowed patterns pattern path) := by
  unfold Shadowed
  infer_instance

/-- The segments of the registered dynamic patterns. -/
def dynamicPatterns (regs : List (Str × α)) : List (List Str) :=
  (regs.filter fun reg => !isStatic reg.1).map fun reg => splitString reg.1 '/'

/-- Routers reached by successful calls of `add_handler`, oldest registration first. -/
inductive Registered : List (Str × α) → RouteHandler α → Prop where
  | empty : Registered [] {}
  | add {regs r r'} (order : NodeOrder α) (path : Str) (creator : α) :
      Registered regs r → addHandler order r path creator = (r', .ok ()) →
      Registered (regs ++ [(path, creator)]) r'

/-- At most one parameter among the children of every node. -/
def SingleParameter (t : ResourceHandler α) : Prop :=
  ∀ keys a b, t.Has (keys ++ [a]) → t.Has (keys ++ [b]) →
    isParameter a = true → isParameter b = true → a = b

/-- The registration that counts: the latest one accepted. -/
def latest (accept : Str → Bool) (regs : List (Str × α)) : Option α :=
  (regs.reverse.find? fun reg => accept reg.1).map Prod.snd

/-- What a router built by a list of registrations contains. -/
structure Represents (regs : List (Str × α)) (r : RouteHandler α) : Prop where
  static : ∀ key, r.staticHandlers.lookup key =
    latest (fun path => isStatic path && formatPath path == key) regs
  dynamic : ∀ keys, r.dynamicHandlers.find keys =
    latest (fun path => !isStatic path && splitString path '/' == keys) regs
  nodes : ∀ keys, r.dynamicHandlers.Has keys ↔
    keys = [] ∨ ∃ pattern ∈ dynamicPatterns regs, keys <+: pattern
  distinct : r.dynamicHandlers.Distinct
  single : SingleParameter r.dynamicHandlers

theorem latest_append (accept : Str → Bool) (regs : List (Str × α)) (path : Str) (creator : α) :
    latest accept (regs ++ [(path, creator)]) =
      if accept path then some creator else latest accept regs := by
  by_cases h : accept path <;> simp [latest, h]

theorem latest_eq_some {accept : Str → Bool} {regs : List (Str × α)} {creator : α}
    (h : latest accept regs = some creator) : ∃ path, (path, creator) ∈ regs ∧ accept path := by
  obtain ⟨reg, hreg, rfl⟩ := Option.map_eq_some_iff.mp h
  have haccept := List.find?_some hreg
  exact ⟨reg.1, by simpa using List.mem_of_find?_eq_some hreg, haccept⟩

theorem latest_isSome_iff {accept : Str → Bool} {regs : List (Str × α)} :
    (latest accept regs).isSome ↔ ∃ reg ∈ regs, accept reg.1 := by
  simp [latest, List.find?_isSome]

theorem singleParameter_child {t child : ResourceHandler α} (h : SingleParameter t) {key : Str}
    (hc : t.child key = some child) : SingleParameter child := by
  intro keys a b ha hb
  exact h (key :: keys) a b (by rw [List.cons_append, PrefixTree.has_cons_iff]; exact ⟨child, hc, ha⟩)
    (by rw [List.cons_append, PrefixTree.has_cons_iff]; exact ⟨child, hc, hb⟩)

/-- Whatever the iteration order, the scan finds exactly the parameter of the level. -/
theorem findParameter_eq_some_iff {order : NodeOrder α} {t : ResourceHandler α}
    (hd : t.Distinct) (hs : SingleParameter t) {name : Str} {c : ResourceHandler α} :
    findParameter order t = some (name, c) ↔ isParameter name = true ∧ t.child name = some c := by
  have hnodup : (t.children.map Prod.fst).Nodup := hd [] t rfl
  have hfound : ∀ p, findParameter order t = some p →
      isParameter p.1 = true ∧ t.child p.1 = some p.2 := by
    intro p h
    have hin := (order.perm _).mem_iff.mp (List.mem_of_find?_eq_some h)
    rw [findParameter] at h
    have hp := List.find?_some h
    exact ⟨hp, PrefixTree.child_of_mem hnodup hin⟩
  refine ⟨hfound (name, c), fun ⟨hp, hc⟩ => ?_⟩
  cases hf : findParameter order t with
  | none =>
    have hin := (order.perm _).mem_iff.mpr (PrefixTree.mem_of_child hc)
    exact absurd hp (by simpa using List.find?_eq_none.mp hf _ hin)
  | some p =>
    obtain ⟨hp', hc'⟩ := hfound p hf
    have he : p.1 = name := hs [] p.1 name (PrefixTree.has_singleton_iff.mpr ⟨_, hc'⟩)
      (PrefixTree.has_singleton_iff.mpr ⟨c, hc⟩) hp' hp
    rw [he, hc] at hc'
    rw [← he, Option.some.inj hc']

theorem findParameter_eq_none_iff {order : NodeOrder α} {t : ResourceHandler α}
    (hd : t.Distinct) (hs : SingleParameter t) :
    findParameter order t = none ↔ ∀ name, isParameter name = true → t.child name = none := by
  constructor
  · intro h name hp
    cases hc : t.child name with
    | none => rfl
    | some c => rw [(findParameter_eq_some_iff hd hs).mpr ⟨hp, hc⟩] at h; cases h
  · intro h
    cases hf : findParameter order t with
    | none => rfl
    | some p =>
      obtain ⟨name, c⟩ := p
      obtain ⟨hp, hc⟩ := (findParameter_eq_some_iff hd hs).mp hf
      rw [h name hp] at hc
      cases hc

/-- The walk of `route` as a relation between the keys it follows and the segments. -/
inductive Greedy : ResourceHandler α → List Str → List Str → Prop where
  | done (t) : Greedy t [] []
  | literal {t c : ResourceHandler α} {key keys path} :
      t.child key = some c → Greedy c keys path → Greedy t (key :: keys) (key :: path)
  | parameter {t c : ResourceHandler α} {key name keys path} :
      t.child key = none → isParameter name = true → t.child name = some c →
      Greedy c keys path → Greedy t (name :: keys) (key :: path)

theorem walk_eq_some_iff {order : NodeOrder α} {t : ResourceHandler α} (hd : t.Distinct)
    (hs : SingleParameter t) (params : Parameters) (path : List Str) (creator : α) :
    (walk order t params path).1 = some creator ↔
      ∃ keys, Greedy t keys path ∧ t.find keys = some creator := by
  induction path generalizing t params with
  | nil =>
    constructor
    · exact fun h => ⟨[], .done t, h⟩
    · rintro ⟨keys, hg, hf⟩
      cases hg
      exact hf
  | cons key path ih =>
    cases hc : t.child key with
    | some c =>
      simp only [walk, hc]
      rw [ih (PrefixTree.distinct_child hd hc) (singleParameter_child hs hc)]
      constructor
      · rintro ⟨keys, hg, hf⟩
        exact ⟨key :: keys, .literal hc hg, by rw [PrefixTree.find_cons hc, hf]⟩
      · rintro ⟨keys, hg, hf⟩
        cases hg with
        | literal hc' hg =>
          rw [hc] at hc'
          cases hc'
          exact ⟨_, hg, by rw [← PrefixTree.find_cons hc, hf]⟩
        | parameter hn => rw [hc] at hn; cases hn
    | none =>
      simp only [walk, hc]
      cases hf : findParameter order t with
      | none =>
        constructor
        · intro h; cases h
        · rintro ⟨keys, hg, -⟩
          cases hg with
          | literal hc' => rw [hc] at hc'; cases hc'
          | parameter _ hp hc' =>
            rw [(findParameter_eq_none_iff hd hs).mp hf _ hp] at hc'
            cases hc'
      | some p =>
        obtain ⟨name, c⟩ := p
        obtain ⟨hp, hcn⟩ := (findParameter_eq_some_iff hd hs).mp hf
        simp only
        rw [ih (PrefixTree.distinct_child hd hcn) (singleParameter_child hs hcn)]
        constructor
        · rintro ⟨keys, hg, hv⟩
          exact ⟨name :: keys, .parameter hc hp hcn hg, by rw [PrefixTree.find_cons hcn, hv]⟩
        · rintro ⟨keys, hg, hv⟩
          cases hg with
          | literal hc' => rw [hc] at hc'; cases hc'
          | parameter _ hp' hc' hg =>
            have he := hf.symm.trans ((findParameter_eq_some_iff hd hs).mpr ⟨hp', hc'⟩)
            cases he
            exact ⟨_, hg, by rw [← PrefixTree.find_cons hcn, hv]⟩

theorem not_has_iff_child_none {t : ResourceHandler α} {key : Str} :
    ¬ t.Has [key] ↔ t.child key = none := by
  rw [PrefixTree.has_singleton_iff]
  cases t.child key <;> simp

/-- The walk follows keys of the tree that match the path, and takes no parameter
where the tree has the segment itself. -/
theorem greedy_iff (t : ResourceHandler α) (keys path : List Str) :
    Greedy t keys path ↔ t.Has keys ∧ List.Forall₂ SegmentMatches keys path ∧
      ∀ i (h : i < path.length), keys[i]? = some path[i] ∨ ¬ t.Has (keys.take i ++ [path[i]]) := by
  induction path generalizing t keys with
  | nil =>
    constructor
    · intro h
      cases h
      exact ⟨t.has_nil, .nil, fun i hi => absurd hi (Nat.not_lt_zero i)⟩
    · rintro ⟨-, hm, -⟩
      cases hm
      exact .done t
  | cons key path ih =>
    constructor
    · intro h
      cases h with
      | literal hc hg =>
        obtain ⟨hhas, hm, hi⟩ := (ih _ _).mp hg
        refine ⟨(PrefixTree.has_cons hc _).mpr hhas, .cons (.inr rfl) hm, fun i hlt => ?_⟩
        cases i with
        | zero => exact Or.inl rfl
        | succ i =>
          simpa [PrefixTree.has_cons hc] using hi i (Nat.lt_of_succ_lt_succ hlt)
      | parameter hn hp hc hg =>
        obtain ⟨hhas, hm, hi⟩ := (ih _ _).mp hg
        refine ⟨(PrefixTree.has_cons hc _).mpr hhas, .cons (.inl hp) hm, fun i hlt => ?_⟩
        cases i with
        | zero => exact Or.inr (not_has_iff_child_none.mpr hn)
        | succ i =>
          simpa [PrefixTree.has_cons hc] using hi i (Nat.lt_of_succ_lt_succ hlt)
    · rintro ⟨hhas, hm, hi⟩
      cases hm with
      | cons hseg hm =>
        rename_i name keys
        obtain ⟨c, hc, hhas⟩ := (PrefixTree.has_cons_iff t name keys).mp hhas
        have hg : Greedy c keys path := by
          refine (ih _ _).mpr ⟨hhas, hm, fun i hlt => ?_⟩
          simpa [PrefixTree.has_cons hc] using hi (i + 1) (Nat.succ_lt_succ hlt)
        by_cases he : name = key
        · subst he
          exact .literal hc hg
        · have h0 := hi 0 (Nat.zero_lt_succ _)
          have hn : ¬ t.Has [key] := by simpa [he] using h0
          exact .parameter (not_has_iff_child_none.mp hn) (hseg.resolve_right he) hc hg

theorem singleParameter_leaf : SingleParameter (PrefixTree.leaf : ResourceHandler α) := by
  intro keys a b ha
  simp [PrefixTree.Has, PrefixTree.subtree_leaf] at ha

theorem singleParameter_childOrLeaf {t : ResourceHandler α} (h : SingleParameter t) (key : Str) :
    SingleParameter (t.childOrLeaf key) := by
  rw [PrefixTree.childOrLeaf]
  cases hc : t.child key with
  | none => exact singleParameter_leaf
  | some c => exact singleParameter_child h hc

/-- No conflict at a key means that no other parameter is on its level. -/
theorem conflict_eq_none_iff {order : NodeOrder α} {t : ResourceHandler α} (hd : t.Distinct)
    (hs : SingleParameter t) {key : Str} : conflict order t key = none ↔
      (isParameter key = true → ∀ other, isParameter other = true → t.Has [other] → other = key) := by
  unfold conflict
  by_cases hk : isParameter key = true
  · rw [if_pos hk]
    cases hf : findParameter order t with
    | none =>
      simp only [true_iff]
      intro _ other ho hhas
      obtain ⟨c, hc⟩ := PrefixTree.has_singleton_iff.mp hhas
      rw [(findParameter_eq_none_iff hd hs).mp hf other ho] at hc
      cases hc
    | some p =>
      obtain ⟨name, c⟩ := p
      obtain ⟨hp, hc⟩ := (findParameter_eq_some_iff hd hs).mp hf
      have hhas : t.Has [name] := PrefixTree.has_singleton_iff.mpr ⟨c, hc⟩
      simp only [ite_eq_right_iff, reduceCtorEq, imp_false, not_not]
      constructor
      · rintro rfl _ other ho hother
        exact hs [] other name hother hhas ho hp
      · exact fun h => h hk name hp hhas
  · simp [hk]

/-- A call that does not throw inserts along its keys, and met no other parameter. -/
theorem addDynamic_ok {order : NodeOrder α} {creator : α} {fullPath : Str} {t t' : ResourceHandler α}
    {keys : List Str} (hd : t.Distinct) (hs : SingleParameter t)
    (h : addDynamic order creator fullPath t keys = (t', .ok ())) :
    t' = t.insert creator keys ∧ ∀ i (hi : i < keys.length), isParameter keys[i] = true →
      ∀ other, isParameter other = true → t.Has (keys.take i ++ [other]) → other = keys[i] := by
  induction keys generalizing t t' fullPath with
  | nil =>
    cases h
    exact ⟨rfl, fun i hi => absurd hi (Nat.not_lt_zero i)⟩
  | cons key keys ih =>
    rw [addDynamic] at h
    cases hcon : conflict order t key with
    | some other => rw [hcon] at h; cases h
    | none =>
      simp only [hcon, Prod.mk.injEq] at h
      obtain ⟨rfl, hok⟩ := h
      obtain ⟨hins, hlevels⟩ := ih (PrefixTree.distinct_childOrLeaf hd key)
        (singleParameter_childOrLeaf hs key) (Prod.ext rfl hok)
      refine ⟨by rw [PrefixTree.insert, ← hins], fun i hi hp other ho hhas => ?_⟩
      cases i with
      | zero => exact (conflict_eq_none_iff hd hs).mp hcon hp other ho hhas
      | succ i =>
        refine hlevels i (Nat.lt_of_succ_lt_succ hi) hp other ho ?_
        exact (PrefixTree.has_childOrLeaf t key _).mpr (Or.inr hhas)

/-- Such an insertion keeps one parameter per level. -/
theorem singleParameter_insert {t : ResourceHandler α} {keys : List Str} (creator : α)
    (hs : SingleParameter t) (hlevels : ∀ i (hi : i < keys.length), isParameter keys[i] = true →
      ∀ other, isParameter other = true → t.Has (keys.take i ++ [other]) → other = keys[i]) :
    SingleParameter (t.insert creator keys) := by
  -- a key on the new path against one that was there before
  have hmixed : ∀ level a b, level ++ [a] <+: keys → t.Has (level ++ [b]) →
      isParameter a = true → isParameter b = true → b = a := by
    intro level a b hpre hhas ha hb
    obtain ⟨rest, rfl⟩ := hpre
    have hlt : level.length < (level ++ [a] ++ rest).length := by simp
    have hget : (level ++ [a] ++ rest)[level.length] = a := by simp
    have := hlevels level.length hlt (by rw [hget]; exact ha) b hb (by simpa using hhas)
    rw [this, hget]
  intro level a b hhas hhas' ha hb
  rw [PrefixTree.has_insert] at hhas hhas'
  obtain hpre | hhas := hhas <;> rcases hhas' with hpre' | hhas'
  · have heq := (List.prefix_of_prefix_length_le hpre hpre' (by simp)).eq_of_length (by simp)
    simpa using heq
  · exact (hmixed level a b hpre hhas' ha hb).symm
  · exact hmixed level b a hpre' hhas hb ha
  · exact hs level a b hhas hhas' ha hb

theorem dynamicPatterns_append (regs : List (Str × α)) (path : Str) (creator : α) :
    dynamicPatterns (regs ++ [(path, creator)]) =
      dynamicPatterns regs ++ if isStatic path then [] else [splitString path '/'] := by
  cases h : isStatic path <;> simp [dynamicPatterns, h]

theorem represents_empty : Represents [] ({} : RouteHandler α) where
  static key := by simp [latest]
  dynamic keys := by simp [latest, PrefixTree.find_leaf]
  nodes keys := by simp [dynamicPatterns, PrefixTree.Has, PrefixTree.subtree_leaf]
  distinct := PrefixTree.distinct_leaf
  single := singleParameter_leaf

theorem isStatic_iff {path : Str} : isStatic path = true ↔ '{' ∉ path := by
  simp [isStatic]

theorem represents_add {regs : List (Str × α)} {r r' : RouteHandler α} {order : NodeOrder α}
    {path : Str} {creator : α} (hr : Represents regs r)
    (h : addHandler order r path creator = (r', .ok ())) :
    Represents (regs ++ [(path, creator)]) r' := by
  unfold addHandler at h
  by_cases hstatic : '{' ∉ path
  · rw [if_pos hstatic] at h
    obtain ⟨rfl, -⟩ := Prod.mk.injEq .. |>.mp h
    have hb : isStatic path = true := isStatic_iff.mpr hstatic
    refine ⟨fun key => ?_, fun keys => ?_, fun keys => ?_, hr.distinct, hr.single⟩
    · rw [latest_append]
      by_cases hk : formatPath path = key
      · subst hk
        simp [hb]
      · rw [AList.lookup_insert_ne (Ne.symm hk), hr.static]
        simp [hk]
    · rw [latest_append, hr.dynamic]
      simp [hb]
    · rw [hr.nodes]
      simp [dynamicPatterns, hb]
  · rw [if_neg hstatic] at h
    obtain ⟨rfl, hok⟩ := Prod.mk.injEq .. |>.mp h
    have hb : isStatic path = false := by
      rw [Bool.eq_false_iff, ne_eq, isStatic_iff]
      exact hstatic
    obtain ⟨hins, hlevels⟩ := addDynamic_ok hr.distinct hr.single (Prod.ext rfl hok)
    refine ⟨fun key => ?_, fun keys => ?_, fun keys => ?_, ?_, ?_⟩ <;> simp only [hins]
    · rw [latest_append, hr.static]
      simp [hb]
    · rw [latest_append, PrefixTree.find_insert, hr.dynamic]
      by_cases hk : keys = splitString path '/'
      · simp [hb, hk]
      · simp [hb, hk, Ne.symm hk]
    · rw [PrefixTree.has_insert, hr.nodes, dynamicPatterns_append, or_left_comm]
      simp only [hb, Bool.false_eq_true, if_false, List.mem_append, List.mem_singleton,
        or_and_right, exists_or, exists_eq_left]
      rw [or_comm (a := keys <+: splitString path '/')]
    · exact PrefixTree.distinct_insert hr.distinct creator _
    · exact singleParameter_insert creator hr.single hlevels

theorem Registered.represents {regs : List (Str × α)} {r : RouteHandler α}
    (h : Registered regs r) : Represents regs r := by
  induction h with
  | empty => exact represents_empty
  | add order path creator _ hadd ih => exact represents_add ih hadd

theorem matches_of_splitString_eq {pattern path : Str}
    (h : splitString pattern '/' = splitString path '/') : Matches pattern path := by
  rw [Matches, h]
  exact List.forall₂_same.mpr fun segment _ => Or.inr rfl

/-- A static pattern has no parameter, so it matches its own segments only. -/
theorem splitString_eq_of_matches {pattern path : Str} (hs : isStatic pattern = true)
    (h : Matches pattern path) : splitString pattern '/' = splitString path '/' := by
  have hnone : ∀ segment ∈ splitString pattern '/', isParameter segment = false := by
    intro segment hseg
    rw [splitString_eq_tokens] at hseg
    rw [isParameter, beq_eq_false_iff_ne]
    exact fun hb => isStatic_iff.mp hs (Lib.mem_of_mem_tokens hseg (List.mem_of_mem_head? hb))
  have hand := (List.forall₂_and_left _ _).mpr ⟨hnone, h⟩
  have heq := List.Forall₂.imp (S := Eq) (fun p k ⟨hn, hm⟩ =>
    hm.resolve_left (by rw [hn]; exact Bool.false_ne_true)) hand
  rwa [List.forall₂_eq_eq_eq] at heq

theorem mem_dynamicPatterns {regs : List (Str × α)} {pattern : List Str} :
    pattern ∈ dynamicPatterns regs ↔
      ∃ reg ∈ regs, isStatic reg.1 = false ∧ splitString reg.1 '/' = pattern := by
  simp [dynamicPatterns, and_assoc]

theorem Represents.has_iff {regs : List (Str × α)} {r : RouteHandler α} (h : Represents regs r)
    (keys : List Str) (key : Str) : r.dynamicHandlers.Has (keys ++ [key]) ↔
      ∃ pattern ∈ dynamicPatterns regs, keys ++ [key] <+: pattern := by
  rw [h.nodes]
  simp

/-- Following a pattern of the tree means matching it unshadowed. -/
theorem Represents.greedy_iff {regs : List (Str × α)} {r : RouteHandler α} (h : Represents regs r)
    {pattern path : List Str} (hp : pattern ∈ dynamicPatterns regs) :
    Greedy r.dynamicHandlers pattern path ↔ List.Forall₂ SegmentMatches pattern path ∧
      ¬ Shadowed (dynamicPatterns regs) pattern path := by
  have hhas : r.dynamicHandlers.Has pattern := by
    rw [h.nodes]
    exact Or.inr ⟨pattern, hp, List.prefix_refl _⟩
  rw [Routing.greedy_iff, and_iff_right hhas]
  refine and_congr_right fun _ => ?_
  constructor
  · rintro hi ⟨⟨i, hlt⟩, hne, hother⟩
    exact (hi i hlt).elim hne fun hn => hn ((h.has_iff _ _).mpr hother)
  · intro hs i hlt
    by_cases he : pattern[i]? = some path[i]
    · exact Or.inl he
    · exact Or.inr fun hhas => hs ⟨⟨i, hlt⟩, he, (h.has_iff _ _).mp hhas⟩

/-- A handler found in the tree was registered under an unshadowed matching pattern. -/
theorem Represents.walk_eq_some {regs : List (Str × α)} {r : RouteHandler α}
    (h : Represents regs r) {order : NodeOrder α} {params : Parameters} {path : Str} {creator : α}
    (hw : (walk order r.dynamicHandlers params (splitString path '/')).1 = some creator) :
    ∃ pattern, (pattern, creator) ∈ regs ∧ Matches pattern path ∧
      ¬ Shadowed (dynamicPatterns regs) (splitString pattern '/') (splitString path '/') := by
  obtain ⟨keys, hg, hf⟩ := (walk_eq_some_iff h.distinct h.single _ _ _).mp hw
  rw [h.dynamic] at hf
  obtain ⟨pattern, hmem, haccept⟩ := latest_eq_some hf
  simp only [Bool.and_eq_true, Bool.not_eq_true', beq_iff_eq] at haccept
  obtain ⟨hdyn, rfl⟩ := haccept
  have hp := mem_dynamicPatterns.mpr ⟨_, hmem, hdyn, rfl⟩
  exact ⟨pattern, hmem, (h.greedy_iff hp).mp hg⟩

theorem Represents.walk_isSome {regs : List (Str × α)} {r : RouteHandler α}
    (h : Represents regs r) {order : NodeOrder α} {params : Parameters} {path : Str}
    {reg : Str × α} (hreg : reg ∈ regs) (hdyn : isStatic reg.1 = false)
    (hm : Matches reg.1 path)
    (hs : ¬ Shadowed (dynamicPatterns regs) (splitString reg.1 '/') (splitString path '/')) :
    (walk order r.dynamicHandlers params (splitString path '/')).1.isSome := by
  have hp := mem_dynamicPatterns.mpr ⟨reg, hreg, hdyn, rfl⟩
  have hg := (h.greedy_iff hp).mpr ⟨hm, hs⟩
  have hf : (r.dynamicHandlers.find (splitString reg.1 '/')).isSome := by
    rw [h.dynamic, latest_isSome_iff]
    exact ⟨reg, hreg, by simp [hdyn]⟩
  obtain ⟨creator, hc⟩ := Option.isSome_iff_exists.mp hf
  exact Option.isSome_iff_exists.mpr
    ⟨creator, (walk_eq_some_iff h.distinct h.single _ _ _).mpr ⟨_, hg, hc⟩⟩

theorem Represents.static_eq_some {regs : List (Str × α)} {r : RouteHandler α}
    (h : Represents regs r) {path : Str} {creator : α}
    (hl : r.staticHandlers.lookup path = some creator) :
    ∃ pattern, (pattern, creator) ∈ regs ∧ isStatic pattern = true ∧ Matches pattern path := by
  rw [h.static] at hl
  obtain ⟨pattern, hmem, haccept⟩ := latest_eq_some hl
  simp only [Bool.and_eq_true, beq_iff_eq] at haccept
  obtain ⟨hstatic, rfl⟩ := haccept
  exact ⟨pattern, hmem, hstatic, matches_of_splitString_eq (splitString_formatPath pattern).symm⟩

theorem Represents.static_isSome {regs : List (Str × α)} {r : RouteHandler α}
    (h : Represents regs r) {path : Str} (hpath : formatPath path = path) {reg : Str × α}
    (hreg : reg ∈ regs) (hs : isStatic reg.1 = true) (hm : Matches reg.1 path) :
    (r.staticHandlers.lookup path).isSome := by
  rw [h.static, latest_isSome_iff]
  have he : formatPath reg.1 = path := by
    rw [← hpath, formatPath_eq_iff]
    exact splitString_eq_of_matches hs hm
  exact ⟨reg, hreg, by simp [hs, he]⟩

theorem route_fst (order : NodeOrder α) (r : RouteHandler α) (request : Request) :
    (route order r request).1 = (r.staticHandlers.lookup request.path).or
      (walk order r.dynamicHandlers request.pathParams (splitString request.path '/')).1 := by
  unfold route
  cases r.staticHandlers.lookup request.path <;> rfl

/-- A pattern a normalised path is routed by: a static one, or an unshadowed dynamic one. -/
def Routes (regs : List (Str × α)) (path : Str) (reg : Str × α) : Prop :=
  reg ∈ regs ∧ Matches reg.1 path ∧ (isStatic reg.1 = true ∨
    ¬ Shadowed (dynamicPatterns regs) (splitString reg.1 '/') (splitString path '/'))

theorem Represents.route_eq_some {regs : List (Str × α)} {r : RouteHandler α}
    (h : Represents regs r) {order : NodeOrder α} {request : Request} {creator : α}
    (hr : (route order r request).1 = some creator) :
    ∃ pattern, Routes regs request.path (pattern, creator) := by
  rw [route_fst] at hr
  cases hl : r.staticHandlers.lookup request.path with
  | some c =>
    rw [hl] at hr
    cases hr
    obtain ⟨pattern, hmem, hs, hm⟩ := h.static_eq_some hl
    exact ⟨pattern, hmem, hm, Or.inl hs⟩
  | none =>
    rw [hl] at hr
    obtain ⟨pattern, hmem, hm, hs⟩ := h.walk_eq_some hr
    exact ⟨pattern, hmem, hm, Or.inr hs⟩

theorem Represents.route_isSome_iff {regs : List (Str × α)} {r : RouteHandler α}
    (h : Represents regs r) {order : NodeOrder α} {request : Request}
    (hpath : formatPath request.path = request.path) :
    (route order r request).1.isSome ↔ ∃ reg, Routes regs request.path reg := by
  constructor
  · intro hs
    obtain ⟨creator, hc⟩ := Option.isSome_iff_exists.mp hs
    obtain ⟨pattern, hp⟩ := h.route_eq_some hc
    exact ⟨_, hp⟩
  · rintro ⟨reg, hreg, hm, hcase⟩
    rw [route_fst, Option.isSome_or, Bool.or_eq_true]
    cases hb : isStatic reg.1 with
    | true => exact Or.inl (h.static_isSome hpath hreg hb hm)
    | false => exact Or.inr (h.walk_isSome hreg hb hm (hcase.resolve_left (by simp [hb])))

theorem shadowed_append {old new : List (List Str)} {pattern path : List Str} :
    Shadowed (old ++ new) pattern path ↔
      Shadowed old pattern path ∨ Shadowed new pattern path := by
  simp only [Shadowed, List.mem_append, or_and_right, exists_or, and_or_left]

/-- A pattern keeps routing a path unless the new registration shadows it. -/
theorem Routes.append {regs : List (Str × α)} {path : Str} {reg : Str × α}
    (h : Routes regs path reg) {new : Str} {creator : α}
    (hkeep : isStatic new = true ∨ isStatic reg.1 = true ∨
      ¬ Shadowed [splitString new '/'] (splitString reg.1 '/') (splitString path '/')) :
    Routes (regs ++ [(new, creator)]) path reg := by
  obtain ⟨hreg, hm, hcase⟩ := h
  refine ⟨List.mem_append_left _ hreg, hm, ?_⟩
  obtain hs | hs := hcase
  · exact Or.inl hs
  obtain hn | hs' | hn := hkeep
  · exact Or.inr (by simpa [dynamicPatterns_append, hn] using hs)
  · exact Or.inl hs'
  · right
    rw [dynamicPatterns_append, shadowed_append, not_or]
    refine ⟨hs, fun hsh => hn ?_⟩
    split at hsh
    · obtain ⟨i, -, other, hother, -⟩ := hsh
      cases hother
    · exact hsh

def storedOrder : NodeOrder Nat := Lib.IterationOrder.stored _

/-- The first of two overlapping patterns, alone and then with the second. -/
def oneHandler : RouteHandler Nat := (addHandler storedOrder {} "/{x}/c".toList 1).1

def twoHandlers : RouteHandler Nat := (addHandler storedOrder oneHandler "/a/{y}/d".toList 2).1

def requestFor (path : Str) : Request := { method := .get, path, version := .http11 }

theorem registered_oneHandler : Registered [("/{x}/c".toList, 1)] oneHandler :=
  .add storedOrder "/{x}/c".toList 1 .empty rfl

theorem registered_twoHandlers :
    Registered [("/{x}/c".toList, 1), ("/a/{y}/d".toList, 2)] twoHandlers :=
  .add storedOrder "/a/{y}/d".toList 2 registered_oneHandler rfl

end RoutineHttp.Routing
