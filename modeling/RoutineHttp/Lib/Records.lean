import Mathlib.Data.List.Basic
import Mathlib.Data.List.Infix

/-! Reading a list up to a delimiter, and the first occurrence of a pattern.
`records` is what a loop of delimiter reads yields: the delimiter ends a record,
a final delimiter opens no further one. -/
namespace RoutineHttp.Lib
variable {α : Type*} [DecidableEq α]

/-- One delimiter read: the record and what is left, or nothing on an empty rest. -/
def readUntil (delim : α) : List α → Option (List α × List α)
  | [] => none
  | x :: xs => if x = delim then some ([], xs) else
      match readUntil delim xs with
      | none => some ([x], [])
      | some (token, rest) => some (x :: token, rest)

/-- All records of a loop of delimiter reads. -/
def records (delim : α) : List α → List (List α)
  | [] => []
  | x :: xs => if x = delim then [] :: records delim xs else
      match records delim xs with
      | [] => [[x]]
      | token :: rest => (x :: token) :: rest

/-- `records` is the loop: one read, then the records of the rest. -/
theorem records_eq_loop (delim : α) (s : List α) :
    records delim s = match readUntil delim s with
      | none => []
      | some (token, rest) => token :: records delim rest := by
  induction s with
  | nil => rfl
  | cons x xs ih =>
    by_cases hx : x = delim
    · simp [records, readUntil, hx]
    · cases h : readUntil delim xs with
      | none => simp [records, readUntil, hx, h, ih]
      | some p => simp [records, readUntil, hx, h, ih]

theorem records_cons_ne {delim x : α} {xs : List α} (hx : x ≠ delim) :
    records delim (x :: xs) = match records delim xs with
      | [] => [[x]]
      | token :: rest => (x :: token) :: rest := by
  rw [records, if_neg hx]

theorem readUntil_eq {delim : α} {s : List α} (hs : s ≠ []) : readUntil delim s =
    some (s.takeWhile fun x => decide (x ≠ delim),
      (s.dropWhile fun x => decide (x ≠ delim)).tail) := by
  induction s with
  | nil => exact absurd rfl hs
  | cons x xs ih =>
    by_cases hx : x = delim
    · simp [readUntil, hx]
    · cases xs with
      | nil => simp [readUntil, hx]
      | cons y ys =>
        rw [readUntil, if_neg hx, ih (List.cons_ne_nil y ys)]
        simp [List.takeWhile_cons, List.dropWhile_cons, hx]

theorem length_records_le (delim : α) (s : List α) :
    (records delim s).length ≤ s.count delim + 1 := by
  induction s with
  | nil => simp [records]
  | cons x xs ih =>
    by_cases hx : x = delim
    · simp [records, hx, ih]
    · rw [records_cons_ne hx, List.count_cons_of_ne hx]
      split <;> simp_all

theorem readUntil_append {delim : α} {s : List α} (h : delim ∉ s) (t : List α) :
    readUntil delim (s ++ delim :: t) = some (s, t) := by
  induction s with
  | nil => simp [readUntil]
  | cons x xs ih =>
    obtain ⟨hx, hxs⟩ := List.ne_and_not_mem_of_not_mem_cons h
    simp [readUntil, Ne.symm hx, ih hxs]

theorem records_append {delim : α} {s : List α} (h : delim ∉ s) (t : List α) :
    records delim (s ++ delim :: t) = s :: records delim t := by
  rw [records_eq_loop, readUntil_append h]

/-- Texts that are each ended by the delimiter are read back one by one. -/
theorem records_flatMap {β : Type*} {delim : α} {f : β → List α} {items : List β}
    (hf : ∀ item ∈ items, delim ∉ f item) (rest : List α) :
    records delim (items.flatMap (fun item => f item ++ [delim]) ++ rest) =
      items.map f ++ records delim rest := by
  induction items with
  | nil => rfl
  | cons item items ih =>
    have hrest := ih fun other hother => hf other (List.mem_cons_of_mem _ hother)
    rw [List.flatMap_cons, List.append_assoc, List.append_assoc, List.singleton_append,
      records_append (hf item (by simp)), hrest, List.map_cons, List.cons_append]

theorem records_of_not_mem {delim : α} {s : List α} (h : delim ∉ s) (hs : s ≠ []) :
    records delim s = [s] := by
  induction s with
  | nil => exact absurd rfl hs
  | cons x xs ih =>
    obtain ⟨hx, hxs⟩ := List.ne_and_not_mem_of_not_mem_cons h
    cases xs with
    | nil => simp [records, Ne.symm hx]
    | cons y ys => simp [records_cons_ne (Ne.symm hx), ih hxs (by simp)]

/-- No record contains the delimiter. -/
theorem not_mem_of_mem_records {delim : α} {s token : List α} (h : token ∈ records delim s) :
    delim ∉ token := by
  induction s generalizing token with
  | nil => simp [records] at h
  | cons x xs ih =>
    by_cases hx : x = delim
    · rw [records, if_pos hx, List.mem_cons] at h
      obtain rfl | h := h
      · exact List.not_mem_nil
      · exact ih h
    · rw [records_cons_ne hx] at h
      cases hr : records delim xs with
      | nil => simp_all [Ne.symm hx]
      | cons first rest =>
        rw [hr, List.mem_cons] at h
        have hfirst : delim ∉ first := ih (by simp [hr])
        obtain rfl | h := h
        · simp [Ne.symm hx, hfirst]
        · exact ih (by simp [hr, h])

/-- What the first record was cut from. -/
theorem records_eq_cons {delim : α} {s token : List α} {rest : List (List α)}
    (h : records delim s = token :: rest) :
    (s = token ∧ rest = []) ∨ ∃ t, s = token ++ delim :: t ∧ records delim t = rest := by
  induction s generalizing token with
  | nil => cases h
  | cons x xs ih =>
    by_cases hx : x = delim
    · rw [records, if_pos hx, List.cons.injEq] at h
      obtain ⟨rfl, hrest⟩ := h
      exact Or.inr ⟨xs, by rw [hx, List.nil_append], hrest⟩
    · rw [records_cons_ne hx] at h
      cases hr : records delim xs with
      | nil =>
        rw [hr] at h
        cases h
        cases xs with
        | nil => exact Or.inl ⟨rfl, rfl⟩
        | cons y ys =>
          rw [records_eq_loop, readUntil_eq (List.cons_ne_nil y ys)] at hr
          cases hr
      | cons first others =>
        rw [hr] at h
        cases h
        obtain ⟨rfl, hrest⟩ | ⟨t, rfl, ht⟩ := ih hr
        · exact Or.inl ⟨rfl, hrest⟩
        · exact Or.inr ⟨t, rfl, ht⟩

/-- Every element of a record comes from the list that was read. -/
theorem mem_of_mem_records {delim a : α} {s token : List α} (h : token ∈ records delim s)
    (ha : a ∈ token) : a ∈ s := by
  induction s generalizing token with
  | nil => simp [records] at h
  | cons x xs ih =>
    by_cases hx : x = delim
    · rw [records, if_pos hx, List.mem_cons] at h
      obtain rfl | h := h
      · simp at ha
      · exact List.mem_cons_of_mem _ (ih h ha)
    · rw [records_cons_ne hx] at h
      cases hr : records delim xs with
      | nil => simp_all
      | cons first rest =>
        rw [hr, List.mem_cons] at h
        obtain rfl | h := h
        · obtain rfl | ha := List.mem_cons.mp ha
          · simp
          · exact List.mem_cons_of_mem _ (ih (by simp [hr]) ha)
        · exact List.mem_cons_of_mem _ (ih (by simp [hr, h]) ha)

/-- The first occurrence of a pattern stays the first one when text follows. -/
theorem dropInfix?_append {l i p s : List α} (h : l.dropInfix? i = some (p, s)) (t : List α) :
    (l ++ t).dropInfix? i = some (p, s ++ t) := by
  rw [List.dropInfix?_eq_some_iff] at h ⊢
  obtain ⟨⟨i', rfl, hi⟩, hmin⟩ := h
  refine ⟨⟨i', by simp, hi⟩, fun p' i'' s' hl hi'' => ?_⟩
  by_contra hlt
  rw [eq_of_beq hi] at hl
  rw [eq_of_beq hi''] at hl
  have hlen : (p' ++ i).length ≤ (p ++ i ++ s).length := by
    simp only [List.length_append]; omega
  have hpre : p' ++ i <+: p ++ i ++ s := by
    refine List.prefix_of_prefix_length_le ⟨s', ?_⟩ (List.prefix_append (p ++ i ++ s) t) hlen
    rw [hl]
  obtain ⟨s'', hs''⟩ := hpre
  exact hlt (hmin p' i s'' (by rw [eq_of_beq hi, ← hs'']) (by simp))

theorem dropInfix?_append_pattern {a i : List α} (h : (a ++ i).dropInfix? i = some (a, []))
    (t : List α) : (a ++ i ++ t).dropInfix? i = some (a, t) := by
  simpa using dropInfix?_append h t

theorem dropInfix?_eq_some {l i p s : List α} (h : l.dropInfix? i = some (p, s)) :
    l = p ++ i ++ s := by
  obtain ⟨⟨i', hl, hi⟩, -⟩ := List.dropInfix?_eq_some_iff.mp h
  rw [hl, eq_of_beq hi]

end RoutineHttp.Lib
