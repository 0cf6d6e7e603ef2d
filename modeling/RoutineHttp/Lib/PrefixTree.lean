import Mathlib.Data.List.Nodup
import Mathlib.Data.List.Infix

/-! Trees of keyed children with an optional value at every node: descent along a
list of keys, insertion along one, and what insertion changes. -/
namespace RoutineHttp.Lib

inductive PrefixTree (κ υ : Type) where
  | node (value : Option υ) (children : List (κ × PrefixTree κ υ))

namespace PrefixTree
variable {κ υ : Type} [DecidableEq κ]

def value : PrefixTree κ υ → Option υ
  | .node v _ => v

def children : PrefixTree κ υ → List (κ × PrefixTree κ υ)
  | .node _ c => c

def leaf : PrefixTree κ υ := .node none []

/-- Replace the child under a key, or add one at the end. -/
def setChild (key : κ) (child : PrefixTree κ υ) :
    List (κ × PrefixTree κ υ) → List (κ × PrefixTree κ υ)
  | [] => [(key, child)]
  | (k, c) :: rest => if k = key then (key, child) :: rest else (k, c) :: setChild key child rest

def child (t : PrefixTree κ υ) (key : κ) : Option (PrefixTree κ υ) := t.children.lookup key

/-- The child under a key, a fresh one when there is none. -/
def childOrLeaf (t : PrefixTree κ υ) (key : κ) : PrefixTree κ υ :=
  (t.child key).getD leaf

def subtree (t : PrefixTree κ υ) : List κ → Option (PrefixTree κ υ)
  | [] => some t
  | key :: keys => match t.child key with
    | none => none
    | some child => child.subtree keys

def insert (v : υ) : PrefixTree κ υ → List κ → PrefixTree κ υ
  | t, [] => .node (some v) t.children
  | t, key :: keys =>
    .node t.value (setChild key (insert v (t.childOrLeaf key) keys) t.children)

/-- The value stored at the end of a list of keys. -/
def find (t : PrefixTree κ υ) (keys : List κ) : Option υ := (t.subtree keys).bind value

def Has (t : PrefixTree κ υ) (keys : List κ) : Prop := (t.subtree keys).isSome

/-- No node has two children under one key. -/
def Distinct (t : PrefixTree κ υ) : Prop :=
  ∀ keys s, t.subtree keys = some s → (s.children.map Prod.fst).Nodup

/-- The nodes of a tree, whichever child of several under one key they hang from. -/
inductive Node : PrefixTree κ υ → PrefixTree κ υ → Prop where
  | root (t) : Node t t
  | descend {t c s : PrefixTree κ υ} {key : κ} : (key, c) ∈ t.children → Node c s → Node t s

theorem lookup_cons_ne {k k' : κ} (h : k ≠ k') (child : PrefixTree κ υ)
    (rest : List (κ × PrefixTree κ υ)) : ((k', child) :: rest).lookup k = rest.lookup k := by
  rw [List.lookup_cons, beq_false_of_ne h]

theorem lookup_setChild (key k : κ) (child : PrefixTree κ υ)
    (children : List (κ × PrefixTree κ υ)) :
    (setChild key child children).lookup k = if k = key then some child else children.lookup k := by
  induction children with
  | nil => by_cases h : k = key <;> simp [setChild, lookup_cons_ne, h]
  | cons p rest ih =>
    obtain ⟨k', c'⟩ := p
    by_cases hk : k' = key
    · subst hk
      by_cases h : k = k'
      · simp [setChild, h]
      · simp [setChild, lookup_cons_ne, h]
    · by_cases h : k = k'
      · subst h
        simp [setChild, hk]
      · simp [setChild, hk, lookup_cons_ne h, ih]

/-- Setting the child that is there already changes nothing. -/
theorem setChild_self {key : κ} {c : PrefixTree κ υ} {children : List (κ × PrefixTree κ υ)}
    (h : children.lookup key = some c) : setChild key c children = children := by
  induction children with
  | nil => simp at h
  | cons p rest ih =>
    obtain ⟨k, c'⟩ := p
    by_cases hk : k = key
    · subst hk
      rw [List.lookup_cons_self] at h
      rw [setChild, if_pos rfl, Option.some.inj h]
    · rw [lookup_cons_ne (Ne.symm hk)] at h
      rw [setChild, if_neg hk, ih h]

theorem child_node (v : Option υ) (key k : κ) (c : PrefixTree κ υ)
    (children : List (κ × PrefixTree κ υ)) : (node v (setChild key c children)).child k =
      if k = key then some c else (node v children).child k :=
  lookup_setChild key k c children

theorem keys_setChild (key : κ) (child : PrefixTree κ υ) (children : List (κ × PrefixTree κ υ)) :
    (setChild key child children).map Prod.fst =
      if key ∈ children.map Prod.fst then children.map Prod.fst
      else children.map Prod.fst ++ [key] := by
  induction children with
  | nil => simp [setChild]
  | cons p rest ih =>
    obtain ⟨k', c'⟩ := p
    by_cases hk : k' = key
    · simp [setChild, hk]
    · simp only [setChild, if_neg hk, List.map_cons, ih, List.mem_cons, Ne.symm hk, false_or]
      split <;> simp

theorem nodup_setChild {key : κ} {child : PrefixTree κ υ} {children : List (κ × PrefixTree κ υ)}
    (h : (children.map Prod.fst).Nodup) : ((setChild key child children).map Prod.fst).Nodup := by
  rw [keys_setChild]
  split
  · exact h
  · rename_i hk
    exact List.Nodup.append h (List.nodup_singleton key) (by simpa using hk)

theorem subtree_cons (t : PrefixTree κ υ) (key : κ) (keys : List κ) :
    t.subtree (key :: keys) = (t.child key).bind fun child => child.subtree keys := by
  rw [subtree]
  cases t.child key <;> rfl

theorem subtree_append (t : PrefixTree κ υ) (ks qs : List κ) :
    t.subtree (ks ++ qs) = (t.subtree ks).bind fun s => s.subtree qs := by
  induction ks generalizing t with
  | nil => rfl
  | cons k ks ih =>
    rw [List.cons_append, subtree_cons, subtree_cons]
    cases t.child k with
    | none => rfl
    | some c => exact ih c

/-- Below the root a subtree does not depend on the root's value. -/
theorem subtree_withValue (v : Option υ) (t : PrefixTree κ υ) (key : κ) (keys : List κ) :
    (node v t.children).subtree (key :: keys) = t.subtree (key :: keys) := rfl

theorem subtree_leaf (keys : List κ) :
    (leaf : PrefixTree κ υ).subtree keys = if keys = [] then some leaf else none := by
  cases keys with
  | nil => simp [subtree]
  | cons k keys => simp [subtree_cons, leaf, child, children]

theorem find_leaf (keys : List κ) : (leaf : PrefixTree κ υ).find keys = none := by
  rw [find, subtree_leaf]
  split <;> rfl

theorem find_cons {t c : PrefixTree κ υ} {key : κ} (hc : t.child key = some c) (keys : List κ) :
    t.find (key :: keys) = c.find keys := by
  rw [find, subtree_cons, hc]
  rfl

theorem has_cons {t c : PrefixTree κ υ} {key : κ} (hc : t.child key = some c) (keys : List κ) :
    t.Has (key :: keys) ↔ c.Has keys := by
  rw [Has, subtree_cons, hc]
  rfl

theorem has_nil (t : PrefixTree κ υ) : t.Has [] := by simp [Has, subtree]

/-- Below the first key, the child a key leads to agrees with the subtree, when there is one. -/
theorem find_childOrLeaf (t : PrefixTree κ υ) (key : κ) (keys : List κ) :
    (t.childOrLeaf key).find keys = t.find (key :: keys) := by
  rw [find, find, subtree_cons, childOrLeaf]
  cases t.child key with
  | none => exact find_leaf keys
  | some child => rfl

theorem find_insert (v : υ) (t : PrefixTree κ υ) (ks qs : List κ) :
    (t.insert v ks).find qs = if qs = ks then some v else t.find qs := by
  induction ks generalizing t qs with
  | nil =>
    cases qs with
    | nil => simp [insert, find, subtree, value]
    | cons q qs => simp [insert, find, subtree_withValue]
  | cons k ks ih =>
    cases qs with
    | nil => simp [insert, find, subtree, value]
    | cons q qs =>
      rw [insert, find, subtree_cons, child_node]
      by_cases hq : q = k
      · subst hq
        have hi := ih (t.childOrLeaf q) qs
        rw [find_childOrLeaf] at hi
        simpa [find] using hi
      · rw [if_neg hq, ← subtree_cons, subtree_withValue]
        simp [hq, find]

theorem has_cons_iff (t : PrefixTree κ υ) (key : κ) (keys : List κ) :
    t.Has (key :: keys) ↔ ∃ child, t.child key = some child ∧ child.Has keys := by
  rw [Has, subtree_cons]
  cases t.child key <;> simp [Has]

theorem has_childOrLeaf (t : PrefixTree κ υ) (key : κ) (keys : List κ) :
    (t.childOrLeaf key).Has keys ↔ keys = [] ∨ t.Has (key :: keys) := by
  rw [has_cons_iff, childOrLeaf]
  cases t.child key with
  | none => cases keys <;> simp [Has, subtree_leaf]
  | some child =>
    simp only [Option.getD_some, Option.some.injEq, exists_eq_left']
    exact ⟨Or.inr, fun h => h.elim (fun he => he ▸ has_nil child) id⟩

/-- Insertion creates exactly the prefixes of the inserted keys. -/
theorem has_insert (v : υ) (t : PrefixTree κ υ) (ks qs : List κ) :
    (t.insert v ks).Has qs ↔ qs <+: ks ∨ t.Has qs := by
  induction ks generalizing t qs with
  | nil =>
    cases qs with
    | nil => simp [has_nil]
    | cons q qs => simp [insert, Has, subtree_withValue]
  | cons k ks ih =>
    cases qs with
    | nil => simp [has_nil]
    | cons q qs =>
      rw [has_cons_iff, insert, child_node]
      by_cases hq : q = k
      · subst hq
        simp only [if_true, Option.some.injEq, exists_eq_left', ih, has_childOrLeaf,
          List.cons_prefix_cons, true_and]
        constructor
        · rintro (h | rfl | h)
          · exact Or.inl h
          · exact Or.inl List.nil_prefix
          · exact Or.inr h
        · rintro (h | h)
          · exact Or.inl h
          · exact Or.inr (Or.inr h)
      · rw [if_neg hq, ← has_cons_iff, Has, subtree_withValue, List.cons_prefix_cons]
        simp [hq, Has]

theorem distinct_leaf : (leaf : PrefixTree κ υ).Distinct := by
  intro keys s hs
  rw [subtree_leaf] at hs
  split at hs
  · cases hs
    exact List.nodup_nil
  · cases hs

theorem distinct_childOrLeaf {t : PrefixTree κ υ} (h : t.Distinct) (key : κ) :
    (t.childOrLeaf key).Distinct := by
  rw [childOrLeaf]
  cases hc : t.child key with
  | none => exact distinct_leaf
  | some c => exact fun keys s hs => h (key :: keys) s (by rw [subtree_cons, hc]; exact hs)

theorem distinct_insert {t : PrefixTree κ υ} (h : t.Distinct) (v : υ) (ks : List κ) :
    (t.insert v ks).Distinct := by
  induction ks generalizing t with
  | nil =>
    intro keys s hs
    cases keys with
    | nil => cases hs; exact h [] t rfl
    | cons k keys => exact h (k :: keys) s hs
  | cons k ks ih =>
    intro keys s hs
    cases keys with
    | nil => cases hs; exact nodup_setChild (h [] t rfl)
    | cons q qs =>
      rw [subtree_cons, insert, child_node] at hs
      by_cases hq : q = k
      · rw [if_pos hq, Option.bind_some] at hs
        exact ih (distinct_childOrLeaf h k) qs s hs
      · rw [if_neg hq, ← subtree_cons, subtree_withValue] at hs
        exact h _ s hs

/-- Among distinct keys, membership is lookup. -/
theorem child_of_mem {t : PrefixTree κ υ} (h : (t.children.map Prod.fst).Nodup)
    {key : κ} {c : PrefixTree κ υ} (hm : (key, c) ∈ t.children) : t.child key = some c := by
  rw [child]
  generalize t.children = children at h hm
  induction children with
  | nil => simp at hm
  | cons p rest ih =>
    obtain ⟨k, c'⟩ := p
    rw [List.map_cons, List.nodup_cons] at h
    obtain he | hm := List.mem_cons.mp hm
    · cases he; simp
    · have hkey : key ∈ rest.map Prod.fst := List.mem_map.mpr ⟨_, hm, rfl⟩
      have hne : key ≠ k := fun he => h.1 (he ▸ hkey)
      rw [lookup_cons_ne hne, ih h.2 hm]

theorem mem_of_child {t : PrefixTree κ υ} {key : κ} {c : PrefixTree κ υ}
    (h : t.child key = some c) : (key, c) ∈ t.children := by
  rw [child] at h
  generalize t.children = children at h
  induction children with
  | nil => simp at h
  | cons p rest ih =>
    obtain ⟨k, c'⟩ := p
    by_cases hk : key = k
    · subst hk
      rw [List.lookup_cons_self] at h
      simp [Option.some.inj h]
    · rw [lookup_cons_ne hk] at h
      exact List.mem_cons_of_mem _ (ih h)

theorem distinct_child {t c : PrefixTree κ υ} (h : t.Distinct) {key : κ}
    (hc : t.child key = some c) : c.Distinct := by
  intro keys s hs
  exact h (key :: keys) s (by rw [subtree_cons, hc]; exact hs)

theorem has_of_child {t s c : PrefixTree κ υ} {keys : List κ} {key : κ}
    (hs : t.subtree keys = some s) (hc : s.child key = some c) : t.Has (keys ++ [key]) := by
  rw [Has, subtree_append, hs, Option.bind_some, subtree_cons, hc]
  rfl

/-- Among distinct keys every node is reached along its keys. -/
theorem Node.exists_subtree {t s : PrefixTree κ υ} (hn : Node t s) (h : t.Distinct) :
    ∃ keys, t.subtree keys = some s := by
  induction hn with
  | root t => exact ⟨[], rfl⟩
  | descend hmem _ ih =>
    have hchild := child_of_mem (h [] _ rfl) hmem
    obtain ⟨keys, hkeys⟩ := ih (distinct_child h hchild)
    exact ⟨_ :: keys, by rw [subtree_cons, hchild]; exact hkeys⟩

theorem has_singleton_iff {t : PrefixTree κ υ} {key : κ} :
    t.Has [key] ↔ ∃ c, t.child key = some c := by
  rw [has_cons_iff]
  simp [has_nil]

end PrefixTree
end RoutineHttp.Lib
