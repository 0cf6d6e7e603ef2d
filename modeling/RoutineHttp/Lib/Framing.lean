import Mathlib.Data.List.Forall2

/-! Messages one after the other on a stream. When a reader finds a message at the front
whatever follows it, the stream falls apart into the messages in one way only. -/
namespace RoutineHttp.Lib
variable {β μ : Type*}

/-- A reader takes a message off the front of a stream. -/
abbrev Reader (β μ : Type*) := List β → Option (μ × List β)

/-- So many messages off the front. -/
def Reader.take (read : Reader β μ) : Nat → Reader β (List μ)
  | 0, stream => some ([], stream)
  | n + 1, stream => (read stream).bind fun first =>
      (read.take n first.2).map fun others => (first.1 :: others.1, others.2)

/-- Whatever follows the text, the reader finds the message in it and leaves the rest. -/
def Reads (read : Reader β μ) (text : List β) (m : μ) : Prop :=
  ∀ rest, read (text ++ rest) = some (m, rest)

variable {read : Reader β μ} {texts texts' : List (List β)} {ms ms' : List μ}

theorem take_of_reads (h : List.Forall₂ (Reads read) texts ms) (rest : List β) :
    read.take ms.length (texts.flatten ++ rest) = some (ms, rest) := by
  induction h with
  | nil => rfl
  | @cons text m texts ms hfirst _ ih =>
    rw [List.flatten_cons, List.append_assoc, List.length_cons, Reader.take, hfirst,
      Option.bind_some, ih, Option.map_some]

/-- One stream holds one list of messages, when no message has an empty text. -/
theorem eq_of_flatten_eq (h : List.Forall₂ (Reads read) texts ms)
    (h' : List.Forall₂ (Reads read) texts' ms') (hne : [] ∉ texts) (hne' : [] ∉ texts')
    (heq : texts.flatten = texts'.flatten) : ms = ms' := by
  induction h generalizing texts' ms' with
  | nil =>
    cases h' with
    | nil => rfl
    | cons =>
      obtain ⟨hempty, -⟩ := List.append_eq_nil_iff.mp heq.symm
      exact absurd hempty fun h => hne' (h ▸ List.mem_cons_self)
  | @cons text m texts ms hfirst _ ih =>
    cases h' with
    | nil =>
      obtain ⟨hempty, -⟩ := List.append_eq_nil_iff.mp heq
      exact absurd hempty fun h => hne (h ▸ List.mem_cons_self)
    | @cons text' m' texts' ms' hfirst' hothers' =>
      have hread := hfirst texts.flatten
      rw [← List.flatten_cons, heq, List.flatten_cons, hfirst', Option.some.injEq,
        Prod.mk.injEq] at hread
      obtain ⟨rfl, hrest⟩ := hread
      rw [ih hothers' (fun h => hne (List.mem_cons_of_mem _ h))
        (fun h => hne' (List.mem_cons_of_mem _ h)) hrest.symm]

end RoutineHttp.Lib
