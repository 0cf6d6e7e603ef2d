import RoutineHttp.Lib.PrefixTree

/-! Rules keyed by lists of keys. A path selects a rule key by key: the rules that have the
key itself go before those that have a wild key at its level. A prefix tree stores such
rules, and all that is read from it can be read from the rules. -/
namespace RoutineHttp.Lib

abbrev Rules (κ υ : Type) := List (List κ × υ)

namespace Rules
variable {κ υ : Type} [DecidableEq κ]

/-- The rules that start with a key, without it. -/
def behind (key : κ) : Rules κ υ → Rules κ υ
  | [] => []
  | ([], _) :: rules => behind key rules
  | (k :: keys, v) :: rules => if k = key then (keys, v) :: behind key rules else behind key rules

/-- The keys the rules start with. -/
def fronts (rules : Rules κ υ) : List κ := rules.filterMap fun rule => rule.1.head?

/-- Of several rules with the same keys the latest one counts. -/
def value (rules : Rules κ υ) (keys : List κ) : Option υ :=
  (rules.reverse.find? fun rule => rule.1 == keys).map Prod.snd

def wildKey (wild : κ → Bool) (rules : Rules κ υ) : Option κ := rules.fronts.find? wild

/-- The value a path selects, and the wild keys on its way with the keys they stand for. -/
def select (wild : κ → Bool) : Rules κ υ → List κ → Option υ × List (κ × κ)
  | rules, [] => (rules.value [], [])
  | rules, key :: path =>
    if key ∈ rules.fronts then select wild (rules.behind key) path
    else match rules.wildKey wild with
      | none => (none, [])
      | some name =>
        let found := select wild (rules.behind name) path
        (found.1, (name, key) :: found.2)

/-- The first level at which the keys have a wild key and the rules another one. -/
def clash (wild : κ → Bool) : Rules κ υ → List κ → Option (List κ × κ × κ)
  | _, [] => none
  | rules, key :: keys =>
    match if wild key then (rules.wildKey wild).filter fun other => other ≠ key else none with
    | some other => some ([], key, other)
    | none => (clash wild (rules.behind key) keys).map fun found =>
        (key :: found.1, found.2.1, found.2.2)

theorem mem_behind {rules : Rules κ υ} {key : κ} {keys : List κ} {v : υ} :
    (keys, v) ∈ rules.behind key ↔ (key :: keys, v) ∈ rules := by
  induction rules with
  | nil => simp [behind]
  | cons rule rules ih =>
    obtain ⟨ks, w⟩ := rule
    cases ks with
    | nil => simp [behind, ih]
    | cons k ks =>
      by_cases hk : k = key
      · simp [behind, hk, ih]
      · simp [behind, hk, ih, Ne.symm hk]

omit [DecidableEq κ] in
theorem mem_fronts {rules : Rules κ υ} {key : κ} :
    key ∈ rules.fronts ↔ ∃ rule ∈ rules, [key] <+: rule.1 := by
  simp only [fronts, List.mem_filterMap]
  refine exists_congr fun rule => and_congr_right fun _ => ?_
  cases rule.1 with
  | nil => simp
  | cons k ks => simp [eq_comm]

theorem value_append (rules : Rules κ υ) (ks keys : List κ) (v : υ) :
    value (rules ++ [(ks, v)]) keys = if ks = keys then some v else rules.value keys := by
  by_cases h : ks = keys <;> simp [value, h]

theorem behind_append (key : κ) (rules more : Rules κ υ) :
    behind key (rules ++ more) = behind key rules ++ behind key more := by
  induction rules with
  | nil => rfl
  | cons rule rules ih =>
    obtain ⟨ks, v⟩ := rule
    cases ks with
    | nil => exact ih
    | cons k ks =>
      rw [List.cons_append, behind, behind, ih]
      split <;> rfl

/-- The value at some keys is the one behind the first of them. -/
theorem value_cons (rules : Rules κ υ) (key : κ) (keys : List κ) :
    rules.value (key :: keys) = (rules.behind key).value keys := by
  induction rules using List.reverseRecOn with
  | nil => rfl
  | append_singleton rules rule ih =>
    obtain ⟨ks, v⟩ := rule
    rw [value_append, behind_append, ih]
    cases ks with
    | nil => simp [behind]
    | cons k ks =>
      by_cases hk : k = key
      · simp [behind, hk, value_append]
      · simp [behind, hk]

end Rules

/-- What the tree has at some keys, and which keys it has, is what the rules say. -/
structure Stores {κ υ : Type} [DecidableEq κ] (t : PrefixTree κ υ) (rules : Rules κ υ) : Prop where
  find : ∀ keys, t.find keys = rules.value keys
  has : ∀ keys, t.Has keys ↔ keys = [] ∨ ∃ rule ∈ rules, keys <+: rule.1

namespace Stores
variable {κ υ : Type} [DecidableEq κ] {t : PrefixTree κ υ} {rules : Rules κ υ}

theorem leaf : Stores (PrefixTree.leaf : PrefixTree κ υ) [] where
  find keys := by rw [PrefixTree.find_leaf]; rfl
  has keys := by simp [PrefixTree.Has, PrefixTree.subtree_leaf]

/-- An insertion is one more rule. -/
theorem insert (h : Stores t rules) (keys : List κ) (v : υ) :
    Stores (t.insert v keys) (rules ++ [(keys, v)]) where
  find qs := by
    rw [PrefixTree.find_insert, Rules.value_append, h.find]
    simp only [eq_comm]
  has qs := by
    rw [PrefixTree.has_insert, h.has, or_left_comm]
    simp only [List.mem_append, List.mem_singleton, or_and_right, exists_or, exists_eq_left]
    rw [or_comm (a := qs <+: keys)]

theorem value (h : Stores t rules) : t.value = rules.value [] := h.find []

theorem child_isSome_iff (h : Stores t rules) {key : κ} :
    (∃ c, t.child key = some c) ↔ key ∈ rules.fronts := by
  rw [← PrefixTree.has_singleton_iff, h.has, Rules.mem_fronts]
  simp

theorem child_eq_none_iff (h : Stores t rules) {key : κ} :
    t.child key = none ↔ key ∉ rules.fronts := by
  rw [← h.child_isSome_iff]
  cases t.child key <;> simp

/-- The child under a key stores the rules behind it. -/
theorem child (h : Stores t rules) {key : κ} {c : PrefixTree κ υ} (hc : t.child key = some c) :
    Stores c (rules.behind key) where
  find keys := by rw [← PrefixTree.find_cons hc, h.find, Rules.value_cons]
  has keys := by
    rw [← PrefixTree.has_cons hc, h.has]
    have hfront := Rules.mem_fronts.mp (h.child_isSome_iff.mp ⟨c, hc⟩)
    constructor
    · rintro (hnil | ⟨⟨ks, v⟩, hrule, hpre⟩)
      · cases hnil
      · obtain ⟨ks, rfl⟩ : ∃ rest, ks = key :: rest := by
          obtain ⟨rest, rfl⟩ := hpre
          exact ⟨_, rfl⟩
        exact Or.inr ⟨(ks, v), Rules.mem_behind.mpr hrule, (List.cons_prefix_cons.mp hpre).2⟩
    · rintro (rfl | ⟨⟨ks, v⟩, hrule, hpre⟩)
      · exact Or.inr hfront
      · exact Or.inr ⟨_, Rules.mem_behind.mp hrule, List.cons_prefix_cons.mpr ⟨rfl, hpre⟩⟩

/-- So does the fresh child that a key not there leads to. -/
theorem childOrLeaf (h : Stores t rules) (key : κ) :
    Stores (t.childOrLeaf key) (rules.behind key) := by
  rw [PrefixTree.childOrLeaf]
  cases hc : t.child key with
  | some c => exact h.child hc
  | none =>
    have hnil : rules.behind key = [] := by
      refine List.eq_nil_iff_forall_not_mem.mpr fun rule hmem => ?_
      obtain ⟨ks, v⟩ := rule
      have hfront := Rules.mem_fronts.mpr ⟨_, Rules.mem_behind.mp hmem, ⟨ks, rfl⟩⟩
      exact h.child_eq_none_iff.mp hc hfront
    rw [hnil]
    exact leaf

end Stores
end RoutineHttp.Lib
