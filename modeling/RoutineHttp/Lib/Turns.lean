import RoutineHttp.Lib.Channel

/-! Machines of one kind that step in turn, and of which more are started on the way. -/
namespace RoutineHttp.Lib
variable {σ α : Type*}

/-- One more machine is started, or the machine at a position makes a step. -/
inductive Turn (α : Type*) where
  | start
  | step (i : ℕ) (a : α)

namespace Turn

/-- The machines as a whole. -/
def run (step : σ → α → Option σ) (fresh : σ) (states : List σ) : Turn α → Option (List σ)
  | .start => some (states ++ [fresh])
  | .step i a => states[i]?.bind fun s => (step s a).map (states.set i)

/-- What the machine at a position does. -/
def own (i : ℕ) : Turn α → Option α
  | .start => none
  | .step j a => if j = i then some a else none

end Turn

section
variable {step : σ → α → Option σ} {fresh : σ}

/-- A machine that has not been started is as if it were in its first state. -/
theorem getD_start (states : List σ) (i : ℕ) :
    (states ++ [fresh])[i]?.getD fresh = states[i]?.getD fresh := by
  obtain hlt | rfl | hgt := Nat.lt_trichotomy i states.length
  · rw [List.getElem?_append_left hlt]
  · simp
  · rw [List.getElem?_eq_none (Nat.le_of_lt hgt), List.getElem?_eq_none (by simp; omega)]

theorem turn_cases {states states' : List σ} {turn : Turn α}
    (h : Turn.run step fresh states turn = some states') :
    match turn with
    | .start => states' = states ++ [fresh]
    | .step i a => ∃ s s', states[i]? = some s ∧ step s a = some s' ∧ states' = states.set i s' := by
  cases turn with
  | start => exact (Option.some.inj h).symm
  | step i a =>
    obtain ⟨s, hs, hmap⟩ := Option.bind_eq_some_iff.mp h
    obtain ⟨s', hs', rfl⟩ := Option.map_eq_some_iff.mp hmap
    exact ⟨s, s', hs, hs', rfl⟩

/-- Each of the machines has made its own steps and no others. -/
theorem run_own {states states' : List σ} {turns : List (Turn α)}
    (h : Lib.run (Turn.run step fresh) states turns = some states') {i : ℕ} {s' : σ}
    (hi : states'[i]? = some s') :
    Lib.run step (states[i]?.getD fresh) (turns.filterMap (Turn.own i)) = some s' := by
  induction turns generalizing states with
  | nil =>
    cases h
    rw [hi]
    rfl
  | cons turn turns ih =>
    obtain ⟨between, hturn, hrest⟩ := run_cons.mp h
    have hlater := ih hrest
    have hcases := turn_cases hturn
    cases turn with
    | start =>
      rw [hcases, getD_start] at hlater
      exact hlater
    | step j a =>
      obtain ⟨s, t, hs, ht, rfl⟩ := hcases
      obtain ⟨hlt, -⟩ := List.getElem?_eq_some_iff.mp hs
      by_cases hij : j = i
      · subst hij
        rw [List.getElem?_set_self hlt] at hlater
        rw [List.filterMap_cons_some (by rw [Turn.own, if_pos rfl]), hs]
        exact run_cons.mpr ⟨t, ht, hlater⟩
      · rw [List.getElem?_set_ne hij] at hlater
        rwa [List.filterMap_cons_none (by rw [Turn.own, if_neg hij])]

end
end RoutineHttp.Lib
