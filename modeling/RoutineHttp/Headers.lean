import RoutineHttp.Utils
import RoutineHttp.Lib.Dictionary
import Mathlib

/-! Header fields and their container: names are compared as they are written,
only the stream parser folds the letter case. -/
namespace RoutineHttp

/-- Name and value. -/
abbrev HeaderField := Σ _ : Str, Str

def HeaderField.asString (field : HeaderField) : Str := field.1 ++ ": ".toList ++ field.2

structure Headers where
  headers : Lib.Dictionary Str Str := ∅
  deriving DecidableEq

namespace Headers

def contains (h : Headers) (key : Str) : Bool := decide (key ∈ h.headers)

/-- `at` and `operator[]` of a constant object. -/
def get (h : Headers) (key : Str) : Except Fault Str :=
  match h.headers.lookup key with
  | some value => .ok value
  | none => .error (.invalidArgument ("Header '".toList ++ key ++ "' not found".toList))

def insert (h : Headers) (key value : Str) : Headers := ⟨Lib.emplace h.headers key value⟩

/-- `h[key] = value`: the field is found or created, then its value replaced. -/
def assign (h : Headers) (key value : Str) : Headers := ⟨h.headers.insert key value⟩

/-- One line of the header block. The value starts two after the colon and loses the
last character of the line; the count wraps when nothing is left to lose. -/
def parseLine (h : Headers) (line : Str) : Except Fault Headers :=
  match find line ':' 2 with
  | none => .ok h
  | some n => do
    let header ← substr line 0 n
    let value ← substr line (n + 2) (sizeSub (sizeSub line.length n) 3)
    return h.insert (header.map Char.toLower) value

def parseLines (h : Headers) : List Str → Except Fault Headers
  | [] => .ok h
  | line :: lines =>
    if line.head? = some '\r' then .ok h
    else do parseLines (← h.parseLine line) lines

def initFromStream (h : Headers) (stream : Str) : Except Fault Headers :=
  h.parseLines (getlines stream '\n')

end Headers

theorem Headers.get_eq_ok_iff {h : Headers} {key value : Str} :
    h.get key = .ok value ↔ h.headers.lookup key = some value := by
  unfold Headers.get
  cases h.headers.lookup key with
  | none => simp
  | some found => simp

/-- Insertion keeps a stored value, so a test in front of it changes nothing. -/
theorem Headers.insert_of_contains {h : Headers} {key : Str} (hk : h.contains key = true)
    (value : Str) : h.insert key value = h := by
  rw [Headers.insert, Lib.emplace, if_pos (of_decide_eq_true hk)]

theorem Headers.mem_insert {h : Headers} {key name value : Str} :
    name ∈ (h.insert key value).headers ↔ name = key ∨ name ∈ h.headers :=
  Lib.mem_emplace h.headers key name value

theorem Headers.forall_insert {P : HeaderField → Prop} {h : Headers} {key value : Str}
    (hh : ∀ e ∈ h.headers.entries, P e) (hnew : P ⟨key, value⟩) :
    ∀ e ∈ (h.insert key value).headers.entries, P e :=
  Lib.forall_entries_emplace hh hnew

/-- What the parser guarantees of every field it stores. -/
structure ParsedField (field : HeaderField) : Prop where
  nameLength : 2 ≤ field.1.length
  nameColon : ':' ∉ field.1.drop 2
  nameLower : field.1.map Char.toLower = field.1
  nameLine : '\n' ∉ field.1
  valueLine : '\n' ∉ field.2

theorem HeaderField.asString_line {field : HeaderField} (hn : '\n' ∉ field.1)
    (hv : '\n' ∉ field.2) : '\n' ∉ field.asString ∧ field.asString ≠ [] :=
  ⟨by simp [HeaderField.asString, hn, hv], by simp [HeaderField.asString]⟩

theorem fieldName_asString {field : HeaderField} (h : ':' ∉ field.1) :
    Lib.Message.fieldName field.asString = field.1 := by
  have := Lib.Message.fieldName_append h (' ' :: field.2)
  simpa [HeaderField.asString] using this

theorem fieldValue_asString {field : HeaderField} (h : ':' ∉ field.1)
    (hvalue : ∀ c ∈ field.2, Lib.Message.isBlank c = false) :
    Lib.Message.fieldValue field.asString = field.2 := by
  have := Lib.Message.fieldValue_append h hvalue
  simpa [HeaderField.asString] using this

/-- Fields streamed one by one are the field lines of a message. -/
theorem write_fields (startLine : Str) (fields : List HeaderField) (body : Str) :
    Lib.Message.write ⟨startLine, fields.map HeaderField.asString, body⟩ =
      startLine ++ crlf ++ fields.flatMap (fun field => field.asString ++ crlf) ++ crlf ++
        body := by
  rw [Lib.Message.write, List.flatMap_map, crlf]

theorem eq_of_toLower_eq {c d : Char} (hd : d.isAlpha = false) (h : c.toLower = d) : c = d := by
  by_cases hu : c.isUpper
  · have hl : c.toLower.isLower := by simp [Char.isAlpha, hu]
    rw [h] at hl
    simp_all [Char.isAlpha]
  · rw [← h, Char.toLower_eq_of_not_isUpper hu]

theorem mem_of_mem_map_toLower {s : Str} {d : Char} (hd : d.isAlpha = false)
    (h : d ∈ s.map Char.toLower) : d ∈ s := by
  obtain ⟨c, hc, hcd⟩ := List.mem_map.mp h
  exact eq_of_toLower_eq hd hcd ▸ hc

/-- With two characters from the colon on, the value is what is left between the character
after the colon and the last one, also when the count wraps. -/
theorem substr_value {line : Str} {n : Nat} (h : n + 2 ≤ line.length) :
    substr line (n + 2) (sizeSub (sizeSub line.length n) 3) = .ok (line.dropLast.drop (n + 2)) := by
  have hsize : sizeSub line.length n = line.length - n := sizeSub_of_le (by omega)
  rw [substr_of_le h, hsize, List.dropLast_eq_take, List.drop_take]
  by_cases hend : n + 2 = line.length
  · rw [List.drop_of_length_le (by omega), List.take_nil, List.take_nil]
  · rw [sizeSub_of_le (by omega)]
    congr 2
    omega

theorem Headers.parseLine_eq {line : Str} {n : Nat} (hf : find line ':' 2 = some n)
    (hn : n + 2 ≤ line.length) (h : Headers) : h.parseLine line =
      .ok (h.insert ((line.take n).map Char.toLower) (line.dropLast.drop (n + 2))) := by
  rw [Headers.parseLine, hf]
  simp only [substr_of_le (Nat.zero_le _), List.drop_zero, substr_value hn, bind, Except.bind, pure,
    Except.pure]

theorem Headers.parseLine_some {h h' : Headers} {line : Str} (hp : h.parseLine line = .ok h') :
    h' = h ∨ ∃ n value, find line ':' 2 = some n ∧
      substr line (n + 2) (sizeSub (sizeSub line.length n) 3) = .ok value ∧
      h' = h.insert ((line.take n).map Char.toLower) value := by
  unfold Headers.parseLine at hp
  cases hf : find line ':' 2 with
  | none => rw [hf] at hp; exact Or.inl (by cases hp; rfl)
  | some n =>
    rw [hf] at hp
    obtain ⟨header, hheader, hp⟩ := bind_eq_ok hp
    obtain ⟨value, hvalue, hp⟩ := bind_eq_ok hp
    rw [substr_of_le (Nat.zero_le _), List.drop_zero] at hheader
    cases hheader
    exact Or.inr ⟨n, value, rfl, hvalue, (Except.ok.inj hp).symm⟩

/-- The loop stops at a line that begins with a return, or parses the line and goes on. -/
theorem Headers.parseLines_cons_ok {h h' : Headers} {line : Str} {lines : List Str}
    (hp : h.parseLines (line :: lines) = .ok h') :
    (line.head? = some '\r' ∧ h' = h) ∨ (line.head? ≠ some '\r' ∧
      ∃ next, h.parseLine line = .ok next ∧ next.parseLines lines = .ok h') := by
  rw [Headers.parseLines] at hp
  split at hp
  · next hend => exact Or.inl ⟨hend, (Except.ok.inj hp).symm⟩
  · next hmore => exact Or.inr ⟨hmore, bind_eq_ok hp⟩

theorem Headers.parseLine_parsed {h h' : Headers} {line : Str} (hline : '\n' ∉ line)
    (hp : h.parseLine line = .ok h') (hh : ∀ e ∈ h.headers.entries, ParsedField e) :
    ∀ e ∈ h'.headers.entries, ParsedField e := by
  obtain rfl | ⟨n, value, hf, hv, rfl⟩ := Headers.parseLine_some hp
  · exact hh
  obtain ⟨hpos, hlen, hcolon⟩ := find_spec hf
  refine Lib.forall_entries_emplace hh ⟨?_, ?_, ?_, ?_, ?_⟩
  · simp only [List.length_map, List.length_take]; omega
  · rw [← List.map_drop]
    exact fun hc => hcolon (mem_of_mem_map_toLower (by decide) hc)
  · simp [Function.comp_def]
  · exact fun hc => hline (List.mem_of_mem_take (mem_of_mem_map_toLower (by decide) hc))
  · exact fun hc => hline (substr_mem hv hc)

theorem Headers.parseLines_parsed {h h' : Headers} {lines : List Str}
    (hlines : ∀ line ∈ lines, '\n' ∉ line) (hp : h.parseLines lines = .ok h')
    (hh : ∀ e ∈ h.headers.entries, ParsedField e) : ∀ e ∈ h'.headers.entries, ParsedField e := by
  induction lines generalizing h with
  | nil => cases hp; exact hh
  | cons line lines ih =>
    obtain ⟨-, rfl⟩ | ⟨-, next, hline, hp⟩ := Headers.parseLines_cons_ok hp
    · exact hh
    · exact ih (fun l hm => hlines l (List.mem_cons_of_mem _ hm)) hp
        (Headers.parseLine_parsed (hlines line (by simp)) hline hh)

theorem Headers.initFromStream_parsed {h h' : Headers} {stream : Str}
    (hp : h.initFromStream stream = .ok h') (hh : ∀ e ∈ h.headers.entries, ParsedField e) :
    ∀ e ∈ h'.headers.entries, ParsedField e :=
  Headers.parseLines_parsed (fun _ hl => Lib.not_mem_of_mem_records hl) hp hh

end RoutineHttp
