import RoutineHttp.Request

/-! The slices the header parser takes from arbitrary lines. They stay within their line
unless the line ends with the colon the name was cut at. -/
namespace RoutineHttp.HeaderSlices

/-- The lines the loop parses: those read before one that begins with a return. -/
def parsedLines (stream : Str) : List Str :=
  (getlines stream '\n').takeWhile fun line => decide (line.head? ≠ some '\r')

/-- When a colon is found the value begins inside the line, and has only characters after
the colon and before the last one. -/
def SlicedInside (line : Str) : Prop :=
  ∀ n, find line ':' 2 = some n → n + 2 ≤ line.length ∧
    ∃ value, substr line (n + 2) (sizeSub (sizeSub line.length n) 3) = .ok value ∧
      value <:+: line.dropLast.drop (n + 1)

def ParsedSafely (stream : Str) : Prop :=
  (∃ h, Headers.initFromStream {} stream = .ok h) ∧
    ∀ line ∈ parsedLines stream, SlicedInside line

/-- The colon found is not the last character of its line. -/
def ColonInside (line : Str) : Prop := find line ':' 2 ≠ some (line.length - 1)

theorem colonInside_iff {line : Str} :
    ColonInside line ↔ ∀ n, find line ':' 2 = some n → n + 2 ≤ line.length := by
  constructor
  · intro h n hf
    obtain ⟨-, hlt, -⟩ := find_spec hf
    have hne : n ≠ line.length - 1 := fun he => h (he ▸ hf)
    omega
  · intro h hf
    have hle := h _ hf
    obtain ⟨hpos, -, -⟩ := find_spec hf
    omega

theorem slicedInside_iff {line : Str} : SlicedInside line ↔ ColonInside line := by
  rw [colonInside_iff]
  constructor
  · exact fun h n hf => (h n hf).1
  · intro h n hf
    refine ⟨h n hf, _, substr_value (h n hf), ?_⟩
    rw [show n + 2 = n + 1 + 1 from rfl, ← List.drop_drop]
    exact (List.drop_suffix 1 _).isInfix

/-- A line is refused only for a slice that starts behind its end. -/
theorem parseLine_ok_iff {h : Headers} {line : Str} :
    (∃ h', h.parseLine line = .ok h') ↔ ColonInside line := by
  rw [colonInside_iff]
  cases hf : find line ':' 2 with
  | none =>
    rw [Headers.parseLine, hf]
    exact iff_of_true ⟨h, rfl⟩ fun n hn => by cases hn
  | some n =>
    simp only [Option.some.injEq, forall_eq']
    constructor
    · rintro ⟨h', hp⟩
      by_contra hlt
      have hvalue : substr line (n + 2) (sizeSub (sizeSub line.length n) 3) = .error .outOfRange :=
        if_pos (Nat.not_le.mp hlt)
      rw [Headers.parseLine, hf] at hp
      simp only [substr_of_le (Nat.zero_le _), hvalue, bind, Except.bind] at hp
      cases hp
    · exact fun hle => ⟨_, Headers.parseLine_eq hf hle h⟩

theorem parseLines_ok_iff {h : Headers} {lines : List Str} :
    (∃ h', h.parseLines lines = .ok h') ↔
      ∀ line ∈ lines.takeWhile fun line => decide (line.head? ≠ some '\r'), ColonInside line := by
  induction lines generalizing h with
  | nil => exact iff_of_true ⟨h, rfl⟩ (List.forall_mem_nil _)
  | cons line lines ih =>
    rw [Headers.parseLines]
    by_cases hhead : line.head? = some '\r'
    · rw [if_pos hhead, List.takeWhile_cons_of_neg (by simp [hhead])]
      exact iff_of_true ⟨h, rfl⟩ (List.forall_mem_nil _)
    · rw [if_neg hhead, List.takeWhile_cons_of_pos (by simp [hhead]), List.forall_mem_cons,
        ← @parseLine_ok_iff h]
      cases hp : h.parseLine line with
      | error fault => simp [bind, Except.bind]
      | ok h' =>
        rw [← @ih h']
        simp [bind, Except.bind]

/-- Parsing never throws and slices only inside lines exactly when no parsed line ends with
the colon that is found in it. -/
theorem parsed_safely_iff (stream : Str) :
    ParsedSafely stream ↔ ∀ line ∈ parsedLines stream, ColonInside line := by
  simp only [ParsedSafely, slicedInside_iff, Headers.initFromStream, parseLines_ok_iff, parsedLines,
    and_self]

/-- A name without a value on a line ended by a bare line feed throws out of the
constructor. -/
theorem bare_name_thrown :
    Request.ofRaw "GET /a HTTP/1.1\r\nHost:\n\r\n".toList = .error .outOfRange ∧
    ¬ ParsedSafely "Host:\n\r\n".toList := by
  refine ⟨rfl, ?_⟩
  rw [ParsedSafely]
  rintro ⟨⟨h, hok⟩, -⟩
  cases hok

end RoutineHttp.HeaderSlices
