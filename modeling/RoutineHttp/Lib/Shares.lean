import Mathlib.Algebra.BigOperators.Group.List.Basic

/-! What the holders in a list have together, in any commutative monoid: numbers, or
multisets of items; and, for numbers, who has the least and how far the shares lie apart. -/
namespace RoutineHttp.Lib
variable {σ M : Type*} [AddCommMonoid M]

def total (share : σ → M) (holders : List σ) : M := (holders.map share).sum

@[simp] theorem total_nil (share : σ → M) : total share [] = 0 := rfl

@[simp] theorem total_cons (share : σ → M) (x : σ) (holders : List σ) :
    total share (x :: holders) = share x + total share holders := by
  simp [total]

@[simp] theorem total_append (share : σ → M) (first second : List σ) :
    total share (first ++ second) = total share first + total share second := by
  simp [total]

theorem total_take_add_drop (share : σ → M) (n : Nat) (holders : List σ) :
    total share (holders.take n) + total share (holders.drop n) = total share holders := by
  rw [← total_append, List.take_append_drop]

/-- A holder that is replaced takes its share along. -/
theorem total_set (share : σ → M) {holders : List σ} {i : Nat} {x : σ} (h : holders[i]? = some x)
    (y : σ) : total share (holders.set i y) + share x = total share holders + share y := by
  induction holders generalizing i with
  | nil => simp at h
  | cons z holders ih =>
    cases i with
    | zero =>
      cases h
      simp only [List.set_cons_zero, total_cons]
      rw [add_right_comm, add_comm (share y), add_right_comm]
    | succ i =>
      have hrest := ih h
      simp only [List.set_cons_succ, total_cons, add_assoc, hrest]

/-- Replacing a holder by one with the same share changes no share. -/
theorem map_set_of_eq {ρ : Type*} {share : σ → ρ} {holders : List σ} {i : Nat} {x y : σ}
    (h : holders[i]? = some x) (hxy : share y = share x) :
    (holders.set i y).map share = holders.map share := by
  induction holders generalizing i with
  | nil => rfl
  | cons z holders ih =>
    cases i with
    | zero =>
      cases h
      rw [List.set_cons_zero, List.map_cons, List.map_cons, hxy]
    | succ i => rw [List.set_cons_succ, List.map_cons, List.map_cons, ih h]

theorem total_set_of_eq {share : σ → M} {holders : List σ} {i : Nat} {x y : σ}
    (h : holders[i]? = some x) (hxy : share y = share x) :
    total share (holders.set i y) = total share holders :=
  congrArg List.sum (map_set_of_eq h hxy)

theorem total_eraseIdx {share : σ → M} {holders : List σ} {i : Nat} {x : σ}
    (h : holders[i]? = some x) :
    total share (holders.eraseIdx i) + share x = total share holders := by
  induction holders generalizing i with
  | nil => simp at h
  | cons z holders ih =>
    cases i with
    | zero =>
      cases h
      rw [List.eraseIdx_cons_zero, total_cons, add_comm]
    | succ i => rw [List.eraseIdx_cons_succ, total_cons, total_cons, add_assoc, ih h]

theorem total_eq_zero {share : σ → M} {holders : List σ} (h : ∀ x ∈ holders, share x = 0) :
    total share holders = 0 := by
  induction holders with
  | nil => rfl
  | cons x holders ih =>
    rw [total_cons, h x (List.mem_cons_self ..), zero_add]
    exact ih fun y hy => h y (List.mem_cons_of_mem _ hy)

section
variable (share : σ → Nat)

/-- The first of the holders with the least share. -/
def FirstLeast (holders : List σ) (i : Nat) (x : σ) : Prop :=
  holders[i]? = some x ∧ (∀ y ∈ holders, share x ≤ share y) ∧
    ∀ j < i, ∀ y, holders[j]? = some y → share x < share y

/-- No two shares differ by more than one. -/
def Level (holders : List σ) : Prop := ∀ x ∈ holders, ∀ y ∈ holders, share x ≤ share y + 1

variable {share}

/-- Giving one more to a holder with the least keeps the shares level. -/
theorem level_set {holders : List σ} {i : Nat} {x x' : σ} (hlevel : Level share holders)
    (hx : FirstLeast share holders i x) (hshare : share x' = share x + 1) :
    Level share (holders.set i x') := by
  have hmem : ∀ {y}, y ∈ holders.set i x' → y ∈ holders ∨ y = x' := List.mem_or_eq_of_mem_set
  have hxin : x ∈ holders := List.mem_of_getElem? hx.1
  intro y hy z hz
  obtain hyin | hyeq := hmem hy
  · obtain hzin | rfl := hmem hz
    · exact hlevel y hyin z hzin
    · have := hlevel y hyin x hxin
      omega
  · obtain hzin | hzeq := hmem hz
    · have := hx.2.1 z hzin
      rw [hyeq]
      omega
    · rw [hyeq, hzeq]
      omega

end

end RoutineHttp.Lib
