import RoutineHttp.Lib.Records

/-! A stream that arrives in segments: reading until a pattern has arrived, which may take
in more than the pattern's end, and reading an exact number of elements. -/
namespace RoutineHttp.Lib
variable {α : Type*}

/-- Whole segments are added to what has been read until the pattern occurs in it. Returns
how far the pattern reaches, all that has been read, and the segments not yet read. -/
def collectUntil [DecidableEq α] (pattern : List α) (acc : List α) :
    List (List α) → Option (Nat × List α × List (List α))
  | [] => (acc.dropInfix? pattern).map fun cut => (cut.1.length + pattern.length, acc, [])
  | segment :: segments =>
    match acc.dropInfix? pattern with
    | some cut => some (cut.1.length + pattern.length, acc, segment :: segments)
    | none => collectUntil pattern (acc ++ segment) segments

/-- An exact number of elements; a segment may be left in part. -/
def collectExactly : Nat → List (List α) → Option (List α × List (List α))
  | 0, segments => some ([], segments)
  | _ + 1, [] => none
  | n + 1, segment :: segments =>
    if n + 1 < segment.length then some (segment.take (n + 1), segment.drop (n + 1) :: segments)
    else (collectExactly (n + 1 - segment.length) segments).map fun got => (segment ++ got.1, got.2)

/-- After so many elements a segment ends. -/
def Boundary (segments : List (List α)) (n : Nat) : Prop :=
  ∃ used rest, segments = used ++ rest ∧ used.flatten.length = n

@[simp] theorem collectExactly_zero (segments : List (List α)) :
    collectExactly 0 segments = some ([], segments) := by
  cases segments <;> rfl

/-- What a successful read until a pattern has done: it stopped at the first segment
after which the pattern had occurred. -/
theorem collectUntil_eq_some [DecidableEq α] {pattern acc read : List α}
    {segments rest : List (List α)} {bytes : Nat}
    (h : collectUntil pattern acc segments = some (bytes, read, rest)) :
    ∃ used, segments = used ++ rest ∧ read = acc ++ used.flatten ∧
      (∃ cut, read.dropInfix? pattern = some cut ∧ bytes = cut.1.length + pattern.length) ∧
      ∀ used' others, segments = used' ++ others → used'.length < used.length →
        (acc ++ used'.flatten).dropInfix? pattern = none := by
  induction segments generalizing acc with
  | nil =>
    obtain ⟨cut, hcut, heq⟩ := Option.map_eq_some_iff.mp h
    cases heq
    exact ⟨[], rfl, by simp, ⟨cut, hcut, rfl⟩, fun _ _ _ hlt => absurd hlt (Nat.not_lt_zero _)⟩
  | cons segment segments ih =>
    rw [collectUntil] at h
    cases hacc : acc.dropInfix? pattern with
    | some cut =>
      rw [hacc] at h
      cases h
      exact ⟨[], rfl, by simp, ⟨cut, hacc, rfl⟩, fun _ _ _ hlt => absurd hlt (Nat.not_lt_zero _)⟩
    | none =>
      rw [hacc] at h
      obtain ⟨used, rfl, rfl, hcut, hmin⟩ := ih h
      refine ⟨segment :: used, rfl, by simp, by simpa using hcut, ?_⟩
      intro used' others hsplit hlt
      cases used' with
      | nil => simpa using hacc
      | cons segment' used' =>
        rw [List.cons_append, List.cons.injEq] at hsplit
        obtain ⟨rfl, hsplit⟩ := hsplit
        simpa using hmin used' others hsplit (by simpa using hlt)

theorem collectUntil_eq_none [DecidableEq α] {pattern acc : List α} {segments : List (List α)}
    (h : collectUntil pattern acc segments = none) :
    (acc ++ segments.flatten).dropInfix? pattern = none := by
  induction segments generalizing acc with
  | nil => simpa [collectUntil] using h
  | cons segment segments ih =>
    rw [collectUntil] at h
    cases hacc : acc.dropInfix? pattern with
    | some cut => simp [hacc] at h
    | none =>
      rw [hacc] at h
      simpa using ih h

/-- Reading until the pattern ends a head: the head has been read, and with it everything
up to the first boundary that is not in front of its end. -/
theorem collectUntil_head [DecidableEq α] {pattern front tail : List α}
    {segments : List (List α)}
    (hfirst : (front ++ pattern).dropInfix? pattern = some (front, []))
    (hbytes : segments.flatten = front ++ pattern ++ tail) :
    ∃ used rest surplus, segments = used ++ rest ∧ used.flatten = front ++ pattern ++ surplus ∧
      surplus ++ rest.flatten = tail ∧
      collectUntil pattern [] segments =
        some ((front ++ pattern).length, front ++ pattern ++ surplus, rest) ∧
      ∀ n, Boundary segments n → (front ++ pattern).length ≤ n →
        (front ++ pattern ++ surplus).length ≤ n := by
  have hwhole : segments.flatten.dropInfix? pattern = some (front, tail) := by
    rw [hbytes]
    exact dropInfix?_append_pattern hfirst tail
  cases hc : collectUntil pattern [] segments with
  | none =>
    have hnone := collectUntil_eq_none hc
    rw [List.nil_append, hwhole] at hnone
    cases hnone
  | some found =>
    obtain ⟨bytes, read, rest⟩ := found
    obtain ⟨used, rfl, rfl, ⟨cut, hcut, rfl⟩, hmin⟩ := collectUntil_eq_some hc
    rw [List.nil_append] at hcut
    have hread := dropInfix?_append hcut rest.flatten
    rw [← List.flatten_append, hwhole, Option.some.injEq, Prod.mk.injEq] at hread
    obtain ⟨hfront, htail⟩ := hread
    have hused : used.flatten = front ++ pattern ++ cut.2 := by
      rw [hfront]
      exact dropInfix?_eq_some hcut
    refine ⟨used, rest, cut.2, rfl, hused, htail.symm, ?_, ?_⟩
    · rw [List.nil_append, hused, List.length_append, hfront]
    · rintro n ⟨used', others, hsplit, rfl⟩ hle
      rw [← hused]
      by_contra hlt
      have hshort : used'.length < used.length := by
        by_contra hlong
        have hpre : used <+: used' := List.prefix_of_prefix_length_le
          ⟨rest, hsplit⟩ ⟨others, rfl⟩ (Nat.not_lt.mp hlong)
        obtain ⟨more, rfl⟩ := hpre
        simp at hlt
      have hnone := hmin used' others hsplit hshort
      have hpre : front ++ pattern <+: used'.flatten := by
        refine List.prefix_of_prefix_length_le ⟨tail, hbytes.symm⟩ ⟨others.flatten, ?_⟩ hle
        rw [hsplit, List.flatten_append]
      obtain ⟨more, hmore⟩ := hpre
      rw [List.nil_append, ← hmore, dropInfix?_append_pattern hfirst] at hnone
      cases hnone

theorem boundary_cons {segment : List α} {segments : List (List α)} {n : Nat} (hn : 0 < n) :
    Boundary (segment :: segments) n ↔ ∃ m, Boundary segments m ∧ n = segment.length + m := by
  constructor
  · rintro ⟨used, rest, hsplit, rfl⟩
    cases used with
    | nil => simp at hn
    | cons segment' used =>
      rw [List.cons_append, List.cons.injEq] at hsplit
      obtain ⟨rfl, rfl⟩ := hsplit
      exact ⟨used.flatten.length, ⟨used, rest, rfl, rfl⟩, by simp⟩
  · rintro ⟨m, ⟨used, rest, rfl, rfl⟩, rfl⟩
    exact ⟨segment :: used, rest, rfl, by simp⟩

theorem boundary_append {used rest : List (List α)} {n : Nat} (hn : 0 < n) :
    Boundary (used ++ rest) (used.flatten.length + n) ↔ Boundary rest n := by
  induction used with
  | nil => simp
  | cons segment used ih =>
    rw [List.cons_append, boundary_cons (by omega), ← ih]
    constructor
    · rintro ⟨m, hm, heq⟩
      have : m = used.flatten.length + n := by
        simp only [List.flatten_cons, List.length_append] at heq
        omega
      rwa [← this]
    · intro hm
      exact ⟨_, hm, by simp [Nat.add_assoc]⟩

theorem boundary_flatten (segments : List (List α)) :
    Boundary segments segments.flatten.length := ⟨segments, [], by simp, rfl⟩

/-- An exact read takes that many elements and leaves the others with their boundaries. -/
theorem collectExactly_eq_some {n : Nat} {segments rest : List (List α)} {got : List α}
    (h : collectExactly n segments = some (got, rest)) :
    got.length = n ∧ got ++ rest.flatten = segments.flatten ∧ rest.length ≤ segments.length ∧
      ∀ m, 0 < m → (Boundary segments (n + m) ↔ Boundary rest m) := by
  induction segments generalizing n got with
  | nil => cases n <;> simp_all [collectExactly]
  | cons segment segments ih =>
    cases n with
    | zero => simp_all [collectExactly]
    | succ n =>
      rw [collectExactly] at h
      split at h
      · next hlt =>
        cases h
        refine ⟨by simp; omega, by simp [← List.append_assoc], by simp, fun m hm => ?_⟩
        rw [boundary_cons (by omega), boundary_cons hm]
        simp only [List.length_drop]
        constructor
        · rintro ⟨k, hk, heq⟩
          exact ⟨k, hk, by omega⟩
        · rintro ⟨k, hk, heq⟩
          exact ⟨k, hk, by omega⟩
      · next hge =>
        obtain ⟨⟨got', rest'⟩, hgot, heq⟩ := Option.map_eq_some_iff.mp h
        cases heq
        obtain ⟨hlen, hflat, hle, hbound⟩ := ih hgot
        refine ⟨by simp [hlen]; omega, by simp [hflat], ?_, fun m hm => ?_⟩
        · exact hle.trans (Nat.le_succ _)
        rw [boundary_cons (by omega), ← hbound m hm]
        constructor
        · rintro ⟨k, hk, heq⟩
          have : k = n + 1 - segment.length + m := by omega
          rwa [← this]
        · intro hk
          exact ⟨_, hk, by omega⟩

theorem collectExactly_isSome {n : Nat} {segments : List (List α)}
    (h : n ≤ segments.flatten.length) : ∃ got, collectExactly n segments = some got := by
  induction segments generalizing n with
  | nil =>
    obtain rfl : n = 0 := by simpa using h
    exact ⟨_, rfl⟩
  | cons segment segments ih =>
    cases n with
    | zero => exact ⟨_, rfl⟩
    | succ n =>
      rw [collectExactly]
      split
      · exact ⟨_, rfl⟩
      · next hge =>
        rw [List.flatten_cons, List.length_append] at h
        obtain ⟨got, hgot⟩ := ih (n := n + 1 - segment.length) (by omega)
        exact ⟨_, by rw [hgot]; rfl⟩

/-- Reading exactly what a stream starts with. -/
theorem collectExactly_prefix {front tail : List α} {segments : List (List α)}
    (h : segments.flatten = front ++ tail) : ∃ rest,
      collectExactly front.length segments = some (front, rest) ∧ rest.flatten = tail := by
  have hle : front.length ≤ segments.flatten.length := by simp [h]
  obtain ⟨⟨got, rest⟩, hgot⟩ := collectExactly_isSome hle
  obtain ⟨hlen, hflat, -, -⟩ := collectExactly_eq_some hgot
  rw [h] at hflat
  obtain ⟨rfl, rfl⟩ := List.append_inj hflat hlen
  exact ⟨rest, hgot, rfl⟩

end RoutineHttp.Lib
