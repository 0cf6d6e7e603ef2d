import RoutineHttp.Types
import RoutineHttp.Lib.Segments
import Mathlib.Tactic.Tauto

/-! String helpers: the two splitters, the path normaliser and the HTTP date. -/
namespace RoutineHttp

def splitString (input : Str) (delim : Char) : List Str :=
  (getlines input delim).filter fun token => !token.isEmpty

/-- The loop counts reads, not tokens: an empty token still uses up the limit. -/
def splitStringLimit (input : Str) (delim : Char) (limit : Nat) : List Str :=
  ((getlines input delim).take limit).filter fun token => !token.isEmpty

def formatPath (path : Str) : Str :=
  (splitString path '/').foldl (fun a b => if a.isEmpty then b else a ++ '/' :: b) []

/-- A template segment: its first character is a brace. -/
def isParameter (segment : Str) : Bool := segment.head? == some '{'

/-- `substr(1, size() - 2)`: the name between the braces of a template segment. -/
def parameterName (segment : Str) : Str := (segment.drop 1).take (sizeSub segment.length 2)

/-- Broken-down UTC time, as `gmtime_r` fills it in. -/
structure Tm where
  sec : Nat
  min : Nat
  hour : Nat
  mday : Nat
  mon : Fin 12
  year : Nat
  wday : Fin 7
  deriving DecidableEq, Repr

def weekdayNames : Fin 7 → String
  | 0 => "Sun" | 1 => "Mon" | 2 => "Tue" | 3 => "Wed" | 4 => "Thu" | 5 => "Fri" | 6 => "Sat"

def monthNames : Fin 12 → String
  | 0 => "Jan" | 1 => "Feb" | 2 => "Mar" | 3 => "Apr" | 4 => "May" | 5 => "Jun" | 6 => "Jul"
  | 7 => "Aug" | 8 => "Sep" | 9 => "Oct" | 10 => "Nov" | 11 => "Dec"

def twoDigits (n : Nat) : Str := if n < 10 then '0' :: toDecimal n else toDecimal n

/-- `std::put_time` with "%a, %d %b %Y %H:%M:%S GMT" in the C locale. -/
def currentHttpDate (now : Tm) : Str :=
  (weekdayNames now.wday).toList ++ ", ".toList ++ twoDigits now.mday ++ " ".toList ++
    (monthNames now.mon).toList ++ " ".toList ++ toDecimal (1900 + now.year) ++ " ".toList ++
    twoDigits now.hour ++ ":".toList ++ twoDigits now.min ++ ":".toList ++ twoDigits now.sec ++
    " GMT".toList

theorem splitString_eq_tokens (input : Str) (delim : Char) :
    splitString input delim = Lib.tokens delim input := by
  unfold splitString getlines Lib.tokens
  congr 1
  funext token
  cases token <;> rfl

theorem formatPath_eq_join (path : Str) :
    formatPath path = Lib.joinTokens '/' (Lib.tokens '/' path) := by
  rw [formatPath, splitString_eq_tokens]
  unfold Lib.joinTokens
  congr 1
  funext a b
  cases a <;> rfl

theorem splitString_formatPath (path : Str) :
    splitString (formatPath path) '/' = splitString path '/' := by
  rw [splitString_eq_tokens, splitString_eq_tokens, formatPath_eq_join,
    Lib.tokens_joinTokens _ _ (Lib.tokens_segments '/' path)]

/-- Two paths have one normal form exactly when they have the same segments. -/
theorem formatPath_eq_iff (p q : Str) :
    formatPath p = formatPath q ↔ splitString p '/' = splitString q '/' := by
  rw [formatPath_eq_join, formatPath_eq_join, splitString_eq_tokens, splitString_eq_tokens]
  exact Lib.joinTokens_tokens_eq_iff '/' p q

theorem formatPath_eq_self_iff (p : Str) : formatPath p = p ↔ Lib.Normal '/' p := by
  rw [formatPath_eq_join]
  exact Lib.joinTokens_tokens_eq_self_iff '/' p

theorem formatPath_idem (p : Str) : formatPath (formatPath p) = formatPath p := by
  rw [formatPath_eq_iff, splitString_formatPath]

theorem mem_of_mem_formatPath {p : Str} {c : Char} (h : c ∈ formatPath p) (hc : c ≠ '/') :
    c ∈ p := by
  rw [formatPath_eq_join, Lib.joinTokens_eq_intercalate _ _ (Lib.tokens_segments '/' p)] at h
  obtain h | ⟨token, ht, hmem⟩ := Lib.mem_intercalate h
  · exact absurd h hc
  · exact Lib.mem_of_mem_tokens ht hmem

theorem mem_formatPath {p : Str} {c : Char} (h : c ∈ p) (hc : c ≠ '/') : c ∈ formatPath p := by
  obtain ⟨token, ht, hmem⟩ := Lib.exists_token_of_mem h hc
  rw [formatPath_eq_join, Lib.joinTokens_eq_intercalate _ _ (Lib.tokens_segments '/' p)]
  exact Lib.mem_intercalate_of_mem ht hmem

/-- A path is empty once normalised when there is nothing but slashes in it. -/
theorem formatPath_eq_nil_iff (p : Str) : formatPath p = [] ↔ ∀ c ∈ p, c = '/' := by
  constructor
  · intro h c hc
    by_contra hne
    have hmem := mem_formatPath hc hne
    rw [h] at hmem
    cases hmem
  · intro h
    rw [formatPath_eq_join]
    cases ht : Lib.tokens '/' p with
    | nil => rfl
    | cons token rest =>
      have hin : token ∈ Lib.tokens '/' p := by simp [ht]
      obtain ⟨hne, hslash⟩ := Lib.tokens_segments '/' p token hin
      obtain ⟨c, hc⟩ := List.exists_mem_of_ne_nil token hne
      exact absurd (h c (Lib.mem_of_mem_tokens hin hc) ▸ hc) hslash

theorem formatPath_cons_slash (p : Str) : formatPath ('/' :: p) = formatPath p := by
  rw [formatPath_eq_iff, splitString_eq_tokens, splitString_eq_tokens, Lib.tokens_cons_delim]

theorem formatPath_concat_slash (p : Str) : formatPath (p ++ ['/']) = formatPath p := by
  rw [formatPath_eq_iff, splitString_eq_tokens, splitString_eq_tokens, Lib.tokens_concat_delim]

/-- A text that stays within its line. -/
def LineText (s : Str) : Prop := '\r' ∉ s ∧ '\n' ∉ s

instance (s : Str) : Decidable (LineText s) := inferInstanceAs (Decidable (_ ∧ _))

@[simp] theorem lineText_append (s t : Str) : LineText (s ++ t) ↔ LineText s ∧ LineText t := by
  simp only [LineText, List.mem_append, not_or]
  tauto

theorem lineText_toDecimal (n : Nat) : LineText (toDecimal n) := by
  constructor <;> intro h <;>
    exact absurd (Nat.isDigit_of_mem_toDigits (by decide) (by decide) h) (by decide)

theorem isBlank_of_mem_toDecimal {n : Nat} {c : Char} (h : c ∈ toDecimal n) :
    Lib.Message.isBlank c = false := by
  have hdigit : c.isDigit = true := Nat.isDigit_of_mem_toDigits (by decide) (by decide) h
  cases hb : Lib.Message.isBlank c with
  | false => rfl
  | true =>
    simp only [Lib.Message.isBlank, Bool.or_eq_true, beq_iff_eq] at hb
    obtain rfl | rfl := hb <;> exact absurd hdigit (by decide)

theorem lineText_twoDigits (n : Nat) : LineText (twoDigits n) := by
  unfold twoDigits
  split
  · rw [← List.singleton_append, lineText_append]
    exact ⟨by decide, lineText_toDecimal n⟩
  · exact lineText_toDecimal n

theorem lineText_currentHttpDate (now : Tm) : LineText (currentHttpDate now) := by
  have hday : ∀ d, LineText (weekdayNames d).toList := by decide
  have hmon : ∀ m, LineText (monthNames m).toList := by decide
  simp only [currentHttpDate, lineText_append, lineText_toDecimal, lineText_twoDigits, hday, hmon,
    and_true, true_and]
  decide

end RoutineHttp
