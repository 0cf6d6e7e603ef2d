import RoutineHttp.Lib.Message

/-! The parts of the C++ standard library the sources compute with. A `std::string`
is its list of characters, a `size_t` a natural number whose subtraction wraps. -/
namespace RoutineHttp

abbrev Str := List Char

/-- Ways for a computation of the sources to leave its defined course. -/
inductive Fault where
  | outOfRange
  | invalidArgument (what : Str)
  | wrongJsonType
  | undefinedBehaviour
  deriving DecidableEq, Repr

def sizeLimit : Nat := UInt64.size

/-- `a - b` on `size_t`. -/
def sizeSub (a b : Nat) : Nat := if b ≤ a then a - b else a + sizeLimit - b

/-- `std::string::substr`. -/
def substr (s : Str) (pos count : Nat) : Except Fault Str :=
  if s.length < pos then .error .outOfRange else .ok ((s.drop pos).take count)

/-- `std::string::find` of one character from a position on. -/
def find (s : Str) (c : Char) (pos : Nat) : Option Nat :=
  ((s.drop pos).findIdx? (· == c)).map (· + pos)

/-- `std::getline` on what is left of a stream. -/
def getline (stream : Str) (delim : Char) : Option (Str × Str) := Lib.readUntil delim stream

/-- The tokens of a `while (std::getline(stream, token, delim))` loop. -/
def getlines (stream : Str) (delim : Char) : List Str := Lib.records delim stream

/-- `std::to_string` of an unsigned number. -/
def toDecimal (n : Nat) : Str := Nat.toDigits 10 n

def isSpace (c : Char) : Bool :=
  c == ' ' || c == '\t' || c == '\n' || c == '\r' || c == '\x0b' || c == '\x0c'

def digitsValue (digits : Str) : Nat :=
  digits.foldl (fun value c => 10 * value + (c.toNat - '0'.toNat)) 0

/-- The sign `std::stoull` accepts in front of the digits. -/
def splitSign : Str → Bool × Str
  | '-' :: rest => (true, rest)
  | '+' :: rest => (false, rest)
  | text => (false, text)

/-- `std::stoull`: blanks, a sign, digits, anything; no digit or overflow throws,
a negated value wraps. -/
def stoull (text : Str) : Except Fault Nat :=
  let (negative, rest) := splitSign (text.dropWhile isSpace)
  let digits := rest.takeWhile Char.isDigit
  if digits = [] then .error (.invalidArgument "stoull".toList)
  else if sizeLimit ≤ digitsValue digits then .error .outOfRange
  else .ok (if negative then sizeSub 0 (digitsValue digits) else digitsValue digits)

def crlf : Str := Lib.lineEnd

/-- A computation that succeeds has succeeded in its first part. -/
theorem bind_eq_ok {ε α β : Type} {x : Except ε α} {f : α → Except ε β} {r : β}
    (h : x >>= f = .ok r) : ∃ a, x = .ok a ∧ f a = .ok r := by
  cases x with
  | error e => cases h
  | ok a => exact ⟨a, rfl, h⟩

theorem sizeSub_of_le {a b : Nat} (h : b ≤ a) : sizeSub a b = a - b := if_pos h

theorem substr_of_le {s : Str} {pos : Nat} (h : pos ≤ s.length) (count : Nat) :
    substr s pos count = .ok ((s.drop pos).take count) := if_neg (Nat.not_lt.mpr h)

theorem substr_mem {s t : Str} {pos count : Nat} (h : substr s pos count = .ok t) {c : Char}
    (hc : c ∈ t) : c ∈ s := by
  unfold substr at h
  split at h
  · cases h
  · cases h
    exact List.mem_of_mem_drop (List.mem_of_mem_take hc)

theorem find_spec {s : Str} {c : Char} {pos n : Nat} (h : find s c pos = some n) :
    pos ≤ n ∧ n < s.length ∧ c ∉ (s.take n).drop pos := by
  unfold find at h
  obtain ⟨i, hi, rfl⟩ := Option.map_eq_some_iff.mp h
  obtain ⟨hlt, -, hmin⟩ := List.findIdx?_eq_some_iff_getElem.mp hi
  rw [List.length_drop] at hlt
  refine ⟨by omega, by omega, fun hc => ?_⟩
  rw [List.drop_take] at hc
  obtain ⟨j, hj, hcj⟩ := List.mem_iff_getElem.mp hc
  rw [List.length_take] at hj
  have := hmin j (by omega)
  rw [List.getElem_take] at hcj
  simp [hcj] at this

theorem find_append {s : Str} {c : Char} (h : c ∉ s) (t : Str) :
    find (s ++ c :: t) c 0 = some s.length := by
  induction s with
  | nil => simp [find, List.findIdx?_cons]
  | cons x xs ih =>
    obtain ⟨hx, hxs⟩ := List.ne_and_not_mem_of_not_mem_cons h
    have hi := ih hxs
    simp only [find, List.drop_zero, Nat.add_zero, Option.map_id'] at hi ⊢
    rw [List.cons_append, List.findIdx?_cons, hi]
    simp [Ne.symm hx]

theorem find_eq_none {s : Str} {c : Char} (h : c ∉ s) : find s c 0 = none := by
  simp only [find, List.drop_zero, Option.map_eq_none_iff, List.findIdx?_eq_none_iff,
    beq_eq_false_iff_ne]
  exact fun x hx he => h (he ▸ hx)

/-- A decimal text without sign or blanks, and the number it denotes. -/
def IsDecimal (text : Str) (n : Nat) : Prop :=
  text ≠ [] ∧ (∀ c ∈ text, c.isDigit = true) ∧ digitsValue text = n

theorem isSpace_of_isDigit {c : Char} (h : c.isDigit = true) : isSpace c = false := by
  cases hs : isSpace c with
  | false => rfl
  | true =>
    simp only [isSpace, Bool.or_eq_true, beq_iff_eq] at hs
    obtain ((((rfl | rfl) | rfl) | rfl) | rfl) | rfl := hs <;> exact absurd h (by decide)

theorem splitSign_of_isDigit {c : Char} (h : c.isDigit = true) (rest : Str) :
    splitSign (c :: rest) = (false, c :: rest) := by
  unfold splitSign
  split
  · rename_i heq
    cases heq
    exact absurd h (by decide)
  · rename_i heq
    cases heq
    exact absurd h (by decide)
  · rfl

/-- On a decimal text below the limit `stoull` is the number denoted. -/
theorem stoull_of_isDecimal {text : Str} {n : Nat} (h : IsDecimal text n) (hn : n < sizeLimit) :
    stoull text = .ok n := by
  obtain ⟨hne, hdigits, rfl⟩ := h
  cases text with
  | nil => exact absurd rfl hne
  | cons c rest =>
    have hc : c.isDigit = true := hdigits c (by simp)
    have htake : (c :: rest).takeWhile Char.isDigit = c :: rest :=
      List.takeWhile_eq_self_iff.mpr hdigits
    have hdrop : (c :: rest).dropWhile isSpace = c :: rest := by
      rw [List.dropWhile_cons_of_neg (by simp [isSpace_of_isDigit hc])]
    simp only [stoull, hdrop, splitSign_of_isDigit hc, htake, if_neg hne,
      if_neg (Nat.not_le.mpr hn), Bool.false_eq_true, if_false]

theorem digitsValue_toDecimal (n : Nat) : digitsValue (toDecimal n) = n :=
  Nat.ofDigitChars_toDigits (by decide) (by decide)

theorem isDecimal_toDecimal (n : Nat) : IsDecimal (toDecimal n) n :=
  ⟨Nat.toDigits_ne_nil, fun _ hc => Nat.isDigit_of_mem_toDigits (by decide) (by decide) hc,
    digitsValue_toDecimal n⟩

end RoutineHttp
