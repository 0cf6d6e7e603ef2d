import RoutineHttp.Params
import Mathlib

/-! The values of a parameter's text: numbers of the integer types, truth values and the text
itself. A conversion takes the whole text or nothing. -/
namespace RoutineHttp.ParameterFields

/-- An integer type other than `bool`, by its sign and its bits. -/
structure IntegerType where
  signed : Bool
  width : Nat
  deriving DecidableEq, Repr

namespace IntegerType

def least (t : IntegerType) : Int := if t.signed then -2 ^ (t.width - 1) else 0

def greatest (t : IntegerType) : Int :=
  if t.signed then 2 ^ (t.width - 1) - 1 else 2 ^ t.width - 1

abbrev Value (t : IntegerType) := { n : Int // t.least ≤ n ∧ n ≤ t.greatest }

end IntegerType

inductive Errc where
  | invalidArgument
  | resultOutOfRange

def minusSign : Str → Bool × Str
  | '-' :: rest => (true, rest)
  | text => (false, text)

def inRange (t : IntegerType) (n : Int) : Except Errc t.Value :=
  if h : t.least ≤ n ∧ n ≤ t.greatest then .ok ⟨n, h⟩ else .error .resultOutOfRange

/-- `std::from_chars` in base ten: where it stops, and the number or the error. There are no
blanks and no plus sign, and a minus sign only for the signed types. -/
def fromChars (t : IntegerType) (text : Str) : Str × Except Errc t.Value :=
  let (negative, rest) := if t.signed then minusSign text else (false, text)
  let digits := rest.takeWhile Char.isDigit
  if digits = [] then (text, .error .invalidArgument)
  else (rest.dropWhile Char.isDigit,
    inRange t (if negative then -digitsValue digits else digitsValue digits))

def parseInteger (t : IntegerType) (text : Str) : Option t.Value :=
  match fromChars t text with
  | ([], .ok value) => some value
  | _ => none

/-- `strncasecmp` with a text in lower case of the same length. -/
def sameLetters (text name : Str) : Bool := text.map Char.toLower == name

def parseBoolean (text : Str) : Option Bool :=
  if text = [] then none
  else if text.length = 1 then
    if text.head? = some '1' then some true
    else if text.head? = some '0' then some false else none
  else if text.length = 4 then if sameLetters text "true".toList then some true else none
  else if text.length = 5 then if sameLetters text "false".toList then some false else none
  else none

/-- The types a parameter can be taken as. -/
inductive FieldType where
  | string
  | integer (t : IntegerType)
  | boolean

abbrev FieldType.Value : FieldType → Type
  | .string => Str
  | .integer t => t.Value
  | .boolean => Bool

/-- `Field::as`. -/
def as : (T : FieldType) → Str → Option T.Value
  | .string, text => some text
  | .integer t, text => parseInteger t text
  | .boolean, text => parseBoolean text

/-- Decimal digits for a number, with a minus sign in front where the type has one. -/
def Numeral (t : IntegerType) (text : Str) (n : Int) : Prop :=
  ∃ digits k, IsDecimal digits k ∧
    (text = digits ∧ n = k ∨ t.signed = true ∧ text = '-' :: digits ∧ n = -k)

/-- What the texts of a type mean. -/
def Denotes : (T : FieldType) → Str → T.Value → Prop
  | .string, text, value => text = value
  | .integer t, text, value => Numeral t text value
  | .boolean, text, value =>
    if value then text = ['1'] ∨ text.map Char.toLower = "true".toList
    else text = ['0'] ∨ text.map Char.toLower = "false".toList

/-- `std::to_string` of a number. -/
def signedDecimal (n : Int) : Str := if n < 0 then '-' :: toDecimal n.natAbs else toDecimal n.natAbs

/-- The plain text for a value. -/
def written : (T : FieldType) → T.Value → Str
  | .string, value => value
  | .integer _, value => signedDecimal value
  | .boolean, value => if value then "true".toList else "false".toList

theorem inRange_ok_iff {t : IntegerType} {n : Int} {value : t.Value} :
    inRange t n = .ok value ↔ value.val = n := by
  unfold inRange
  constructor
  · intro h
    split at h
    · cases h
      rfl
    · cases h
  · rintro rfl
    rw [dif_pos value.property]

theorem minusSign_of_isDecimal {digits : Str} {k : Nat} (h : IsDecimal digits k) :
    minusSign digits = (false, digits) := by
  obtain ⟨hne, hdigits, -⟩ := h
  cases digits with
  | nil => exact absurd rfl hne
  | cons c rest =>
    unfold minusSign
    split
    · next heq =>
      cases heq
      exact absurd (hdigits '-' (by simp)) (by decide)
    · rfl

/-- Digits to the end are all taken. -/
theorem parseInteger_digits {t : IntegerType} {text digits : Str} {negative : Bool} {k : Nat}
    (hsign : (if t.signed then minusSign text else (false, text)) = (negative, digits))
    (hdigits : IsDecimal digits k) {value : t.Value}
    (hvalue : value.val = if negative then -(k : Int) else k) :
    parseInteger t text = some value := by
  obtain ⟨hne, hall, rfl⟩ := hdigits
  have htake : digits.takeWhile Char.isDigit = digits := List.takeWhile_eq_self_iff.mpr hall
  have hdrop : digits.dropWhile Char.isDigit = [] := List.dropWhile_eq_nil_iff.mpr hall
  unfold parseInteger fromChars
  rw [hsign]
  simp only [htake, hdrop, if_neg hne, inRange_ok_iff.mpr hvalue]

/-- What is taken are digits to the end. -/
theorem parseInteger_some {t : IntegerType} {text : Str} {value : t.Value}
    (h : parseInteger t text = some value) : ∃ negative digits k,
      (if t.signed then minusSign text else (false, text)) = (negative, digits) ∧
        IsDecimal digits k ∧ value.val = if negative then -(k : Int) else k := by
  unfold parseInteger fromChars at h
  obtain ⟨negative, rest, hsign⟩ : ∃ negative rest,
      (if t.signed then minusSign text else (false, text)) = (negative, rest) :=
    ⟨(if t.signed then minusSign text else (false, text)).1, _, rfl⟩
  rw [hsign] at h
  dsimp only at h
  by_cases hne : rest.takeWhile Char.isDigit = []
  · rw [if_pos hne] at h
    cases text <;> cases h
  · rw [if_neg hne] at h
    split at h
    · next heq =>
      obtain ⟨hstop, hresult⟩ := Prod.mk.inj heq
      have hall := List.dropWhile_eq_nil_iff.mp hstop
      have htake : rest.takeWhile Char.isDigit = rest := List.takeWhile_eq_self_iff.mpr hall
      rw [htake] at hne hresult
      cases h
      exact ⟨negative, rest, _, hsign, ⟨hne, hall, rfl⟩, inRange_ok_iff.mp hresult⟩
    · cases h

theorem parseInteger_eq_some_iff {t : IntegerType} {text : Str} {value : t.Value} :
    parseInteger t text = some value ↔ Numeral t text value := by
  constructor
  · intro h
    obtain ⟨negative, digits, k, hsign, hdigits, hvalue⟩ := parseInteger_some h
    refine ⟨digits, k, hdigits, ?_⟩
    cases hsigned : t.signed with
    | false =>
      rw [hsigned] at hsign
      cases hsign
      exact Or.inl ⟨rfl, hvalue⟩
    | true =>
      rw [hsigned, if_pos rfl] at hsign
      unfold minusSign at hsign
      split at hsign
      · cases hsign
        exact Or.inr ⟨rfl, rfl, hvalue⟩
      · cases hsign
        exact Or.inl ⟨rfl, hvalue⟩
  · rintro ⟨digits, k, hdigits, ⟨rfl, hvalue⟩ | ⟨hsigned, rfl, hvalue⟩⟩
    · refine @parseInteger_digits t _ _ false _ ?_ hdigits value hvalue
      rw [minusSign_of_isDecimal hdigits]
      exact ite_self _
    · refine @parseInteger_digits t _ _ true _ ?_ hdigits value hvalue
      rw [hsigned]
      rfl

/-- A text of another length has not these letters. -/
theorem map_toLower_ne {text name : Str} (h : text.length ≠ name.length) :
    text.map Char.toLower ≠ name := fun heq => h (by rw [← heq, List.length_map])

theorem parseBoolean_eq_some_iff {text : Str} {value : Bool} :
    parseBoolean text = some value ↔ Denotes .boolean text value := by
  have htrue : "true".toList.length = 4 := by decide
  have hfalse : "false".toList.length = 5 := by decide
  unfold parseBoolean Denotes sameLetters
  match text with
  | [] => cases value <;> simp
  | [c] =>
    by_cases hc : c = '1'
    · cases value <;> simp [hc]
    · by_cases hz : c = '0' <;> cases value <;> simp [hc, hz]
  | c :: d :: rest =>
    have hlong : (c :: d :: rest).length ≠ 1 := by simp
    have hdigit : ∀ x, c :: d :: rest ≠ [x] := by simp
    rw [if_neg (List.cons_ne_nil _ _), if_neg hlong]
    by_cases hfour : (c :: d :: rest).length = 4
    · have hno : (c :: d :: rest).map Char.toLower ≠ "false".toList :=
        map_toLower_ne (by rw [hfour, hfalse]; decide)
      rw [if_pos hfour]
      cases value <;> simp only [hno, hdigit, beq_iff_eq] <;> simp
    · have hno : (c :: d :: rest).map Char.toLower ≠ "true".toList :=
        map_toLower_ne (by rwa [htrue])
      rw [if_neg hfour]
      by_cases hfive : (c :: d :: rest).length = 5
      · rw [if_pos hfive]
        cases value <;> simp only [hno, hdigit, beq_iff_eq] <;> simp
      · have hnone : (c :: d :: rest).map Char.toLower ≠ "false".toList :=
          map_toLower_ne (by rwa [hfalse])
        rw [if_neg hfive]
        cases value <;> simp only [hno, hnone, hdigit] <;> simp

/-- A number is written as a numeral for it. -/
theorem numeral_signedDecimal {t : IntegerType} {n : Int} (hsigned : n < 0 → t.signed = true) :
    Numeral t (signedDecimal n) n := by
  refine ⟨toDecimal n.natAbs, n.natAbs, isDecimal_toDecimal n.natAbs, ?_⟩
  unfold signedDecimal
  by_cases hn : n < 0
  · rw [if_pos hn]
    exact Or.inr ⟨hsigned hn, rfl, by omega⟩
  · rw [if_neg hn]
    exact Or.inl ⟨rfl, by omega⟩

/-- Only the signed types have negative numbers. -/
theorem signed_of_neg {t : IntegerType} (value : t.Value) (h : value.val < 0) :
    t.signed = true := by
  have hleast := value.property.1
  unfold IntegerType.least at hleast
  split at hleast
  · assumption
  · omega

theorem as_eq_some_iff {T : FieldType} {text : Str} {value : T.Value} :
    as T text = some value ↔ Denotes T text value := by
  cases T with
  | string => exact Option.some_inj
  | integer t => exact parseInteger_eq_some_iff
  | boolean => exact parseBoolean_eq_some_iff

theorem as_written (T : FieldType) (value : T.Value) : as T (written T value) = some value := by
  cases T with
  | string => rfl
  | integer t =>
    exact parseInteger_eq_some_iff.mpr (numeral_signedDecimal (signed_of_neg value))
  | boolean => cases value <;> rfl

end RoutineHttp.ParameterFields
