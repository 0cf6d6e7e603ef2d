import Mathlib.Data.List.Basic

/-! Writes on one byte stream, served in the order they were issued. Each of them
transmits a non-empty prefix of its buffer and is complete then; an abort completes all
that are outstanding without transmitting. -/
namespace RoutineHttp.Lib
variable {β : Type*}

/-- All buffers passed so far, the writes not yet complete with the number of their buffer,
and the elements transmitted. -/
structure WriteQueue (β : Type*) where
  passed : List (List β) := []
  outstanding : List (Nat × List β) := []
  sent : List β := []

inductive WriteStep (β : Type*) where
  | issue (buffer : List β)
  | drop (buffer : List β)
  | transmit (count : Nat)
  | abort

namespace WriteQueue

def step (q : WriteQueue β) : WriteStep β → Option (WriteQueue β)
  | .issue buffer => some { q with
      passed := q.passed ++ [buffer], outstanding := q.outstanding ++ [(q.passed.length, buffer)] }
  | .drop buffer => some { q with passed := q.passed ++ [buffer] }
  | .transmit count => match q.outstanding with
    | [] => none
    | (_, buffer) :: rest => if 0 < count ∧ count ≤ buffer.length then
        some { q with outstanding := rest, sent := q.sent ++ buffer.take count } else none
  | .abort => some { q with outstanding := [] }

/-- The elements of the outstanding writes. -/
def waiting (q : WriteQueue β) : List β := q.outstanding.flatMap Prod.snd

def Pending (q : WriteQueue β) (n : Nat) : Prop := ∃ buffer, (n, buffer) ∈ q.outstanding

/-- Nothing passed is lost: it has been sent or waits, in order. -/
def Whole (q : WriteQueue β) : Prop := q.sent ++ q.waiting = q.passed.flatten

/-- Something passed is neither sent nor waiting. -/
def Short (q : WriteQueue β) : Prop := (q.sent ++ q.waiting).length < q.passed.flatten.length

/-- A step that loses nothing. -/
def Intact (q : WriteQueue β) : WriteStep β → Prop
  | .issue _ => True
  | .drop buffer => buffer = []
  | .transmit count => ∀ n buffer rest, q.outstanding = (n, buffer) :: rest → count = buffer.length
  | .abort => q.waiting = []

theorem not_whole_of_short {q : WriteQueue β} (h : q.Short) : ¬ q.Whole := fun hw => by
  rw [Short, hw] at h
  exact absurd h (Nat.lt_irrefl _)

theorem whole_step {q q' : WriteQueue β} {w : WriteStep β} (hq : q.Whole) (hw : q.Intact w)
    (hs : q.step w = some q') : q'.Whole := by
  cases w with
  | issue buffer =>
    cases hs
    simp only [Whole, waiting, List.flatMap_append, List.flatMap_singleton, List.flatten_append,
      List.flatten_singleton, ← List.append_assoc] at hq ⊢
    rw [hq]
  | drop buffer =>
    cases hs
    rw [show buffer = [] from hw]
    simpa [Whole, waiting] using hq
  | transmit count =>
    cases ho : q.outstanding with
    | nil => simp [step, ho] at hs
    | cons first rest =>
      have hcount : count = first.2.length := hw first.1 first.2 rest ho
      simp only [step, ho] at hs
      split at hs
      · cases hs
        simpa [Whole, waiting, ho, hcount] using hq
      · cases hs
  | abort =>
    cases hs
    rw [Whole, show q.waiting = [] from hw, List.append_nil] at hq
    simpa [Whole, waiting] using hq

theorem short_step {q q' : WriteQueue β} {w : WriteStep β} (hs : q.step w = some q') :
    (q.Short → q'.Short) ∧ (q.Whole → ¬ q.Intact w → q'.Short) := by
  cases w with
  | issue buffer =>
    cases hs
    refine ⟨fun h => ?_, fun _ h => absurd trivial h⟩
    simp only [Short, waiting, List.flatMap_append, List.flatMap_singleton, List.flatten_append,
      List.flatten_singleton, List.length_append] at h ⊢
    omega
  | drop buffer =>
    cases hs
    constructor
    · intro h
      simp only [Short, waiting, List.flatten_append, List.flatten_singleton,
        List.length_append] at h ⊢
      omega
    · intro h hne
      have hpos : 0 < buffer.length := List.length_pos_of_ne_nil hne
      have hlen := congrArg List.length h
      simp only [Short, waiting, List.flatten_append, List.flatten_singleton,
        List.length_append] at hlen ⊢
      omega
  | transmit count =>
    cases ho : q.outstanding with
    | nil => simp [step, ho] at hs
    | cons first rest =>
      simp only [step, ho] at hs
      split at hs
      · next hcount =>
        cases hs
        constructor
        · intro h
          simp only [Short, waiting, ho, List.flatMap_cons, List.length_append,
            List.length_take] at h ⊢
          omega
        · intro h hshort
          have hne : count ≠ first.2.length := fun he => hshort fun n buffer rest' heq => by
            rw [ho] at heq
            cases heq
            exact he
          have hlen := congrArg List.length h
          simp only [Short, waiting, ho, List.flatMap_cons, List.length_append,
            List.length_take] at hlen ⊢
          omega
      · cases hs
  | abort =>
    cases hs
    constructor
    · intro h
      simp only [Short, waiting, List.flatMap_nil, List.length_append, List.length_nil] at h ⊢
      omega
    · intro h hne
      have hpos : 0 < q.waiting.length := List.length_pos_of_ne_nil hne
      have hlen := congrArg List.length h
      simp only [waiting] at hpos
      simp only [Short, waiting, List.flatMap_nil, List.length_append, List.length_nil] at hlen ⊢
      omega

end WriteQueue
end RoutineHttp.Lib
