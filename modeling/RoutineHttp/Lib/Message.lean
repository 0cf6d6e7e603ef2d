import RoutineHttp.Lib.Records
import Mathlib.Data.List.TakeWhile

/-! Text messages made of a start line, field lines, an empty line and a body, every
line ended by CR LF. A line may contain a lone CR but no LF. -/
namespace RoutineHttp.Lib

def lineEnd : List Char := ['\r', '\n']

def headEnd : List Char := lineEnd ++ lineEnd

structure Message where
  startLine : List Char
  fieldLines : List (List Char)
  body : List Char
  deriving DecidableEq

namespace Message

def write (m : Message) : List Char :=
  m.startLine ++ lineEnd ++ m.fieldLines.flatMap (fun line => line ++ lineEnd) ++ lineEnd ++ m.body

/-- The lines of a head, the last one without its end. -/
def lines : List Char → List (List Char)
  | [] => [[]]
  | '\r' :: '\n' :: rest => [] :: lines rest
  | c :: rest => match lines rest with
    | [] => [[c]]
    | line :: others => (c :: line) :: others

/-- The head reaches to the first empty line, whatever follows is body. -/
def parse (text : List Char) : Option Message :=
  (text.dropInfix? headEnd).map fun cut =>
    { startLine := (lines cut.1).headD [], fieldLines := (lines cut.1).tail, body := cut.2 }

def isNameChar (c : Char) : Bool := c != ':'

def fieldName (line : List Char) : List Char := line.takeWhile isNameChar

def isBlank (c : Char) : Bool := c == ' ' || c == '\t'

/-- What follows the first colon, without the blanks around it. -/
def fieldValue (line : List Char) : List Char :=
  ((((line.dropWhile isNameChar).drop 1).dropWhile isBlank).reverse.dropWhile isBlank).reverse

/-- The values of the fields of one name, in whatever case it is written. -/
def valuesOf (m : Message) (name : List Char) : List (List Char) :=
  (m.fieldLines.filter fun line => decide ((fieldName line).map Char.toLower = name)).map fieldValue

theorem isNameChar_of_mem {name : List Char} (h : ':' ∉ name) : ∀ c ∈ name, isNameChar c = true :=
  fun _ hc => bne_iff_ne.mpr fun he => h (he ▸ hc)

theorem fieldName_append {name : List Char} (h : ':' ∉ name) (rest : List Char) :
    fieldName (name ++ ':' :: rest) = name := by
  rw [fieldName, List.takeWhile_append_of_pos (isNameChar_of_mem h)]
  simp [isNameChar]

/-- A colon among the first characters cuts the name short. -/
theorem length_fieldName_lt {line : List Char} {n : Nat} (h : ':' ∈ line.take n) :
    (fieldName line).length < n := by
  by_contra hle
  have hpre : line.take n <+: fieldName line :=
    List.prefix_of_prefix_length_le (List.take_prefix n line) (List.takeWhile_prefix isNameChar)
      ((List.length_take_le n line).trans (Nat.not_lt.mp hle))
  have hcolon : isNameChar ':' = true := List.mem_takeWhile_imp (hpre.subset h)
  exact absurd hcolon (by decide)

theorem fieldValue_append {name value : List Char} (h : ':' ∉ name)
    (hvalue : ∀ c ∈ value, isBlank c = false) : fieldValue (name ++ ':' :: ' ' :: value) = value := by
  have hdrop : ∀ l : List Char, (∀ c ∈ l, isBlank c = false) → l.dropWhile isBlank = l := by
    intro l hl
    cases l with
    | nil => rfl
    | cons c l => exact List.dropWhile_cons_of_neg (by simp [hl c (by simp)])
  have hblank : isBlank ' ' = true := by decide
  rw [fieldValue, List.dropWhile_append_of_pos (isNameChar_of_mem h),
    List.dropWhile_cons_of_neg (by decide), List.drop_one, List.tail_cons,
    List.dropWhile_cons_of_pos hblank, hdrop value hvalue,
    hdrop value.reverse fun c hc => hvalue c (List.mem_reverse.mp hc), List.reverse_reverse]

end Message

theorem dropInfix?_go_acc (i l acc : List Char) : List.dropInfix?.go i l acc =
    (List.dropInfix?.go i l []).map fun cut => (acc.reverse ++ cut.1, cut.2) := by
  induction l generalizing acc with
  | nil => by_cases hi : i.isEmpty <;> simp [List.dropInfix?.go, hi]
  | cons x xs ih =>
    simp only [List.dropInfix?.go]
    cases (x :: xs).dropPrefix? i with
    | some s => simp
    | none =>
      simp only
      rw [ih (x :: acc), ih [x]]
      cases List.dropInfix?.go i xs [] <;> simp

theorem dropInfix?_cons {x : Char} {xs i : List Char} (h : ¬ i <+: x :: xs) :
    (x :: xs).dropInfix? i = (xs.dropInfix? i).map fun cut => (x :: cut.1, cut.2) := by
  have hp : (x :: xs).dropPrefix? i = none := by
    cases hd : (x :: xs).dropPrefix? i with
    | none => rfl
    | some s =>
      obtain ⟨p, hps, hi⟩ := List.dropPrefix?_eq_some_iff.mp hd
      exact absurd ⟨s, by rw [hps, eq_of_beq hi]⟩ h
  rw [List.dropInfix?, List.dropInfix?.go, hp]
  simp only
  rw [dropInfix?_go_acc]
  rfl

/-- A line in front of a text that does not start with an empty line. -/
theorem dropInfix?_line {line rest : List Char} (hline : '\n' ∉ line) (hrest : ¬ lineEnd <+: rest) :
    (line ++ lineEnd ++ rest).dropInfix? headEnd =
      (rest.dropInfix? headEnd).map fun cut => (line ++ lineEnd ++ cut.1, cut.2) := by
  induction line with
  | nil =>
    have h₁ : ¬ headEnd <+: '\r' :: '\n' :: rest := by
      simpa [headEnd, lineEnd] using hrest
    have h₂ : ¬ headEnd <+: '\n' :: rest := by simp [headEnd, lineEnd]
    change ('\r' :: '\n' :: rest).dropInfix? headEnd = _
    rw [dropInfix?_cons h₁, dropInfix?_cons h₂]
    cases rest.dropInfix? headEnd <;> rfl
  | cons x xs ih =>
    obtain ⟨hx, hxs⟩ := List.ne_and_not_mem_of_not_mem_cons hline
    have hn : ¬ headEnd <+: x :: (xs ++ lineEnd ++ rest) := by
      cases xs with
      | nil => simp [headEnd, lineEnd]
      | cons y ys =>
        have hy : '\n' ≠ y := fun h => hxs (h ▸ List.mem_cons_self)
        simp [headEnd, lineEnd, hy]
    rw [List.cons_append, List.cons_append, dropInfix?_cons hn, ih hxs]
    cases rest.dropInfix? headEnd <;> rfl

/-- The last line of a head. -/
theorem dropInfix?_lastLine {line : List Char} (hline : '\n' ∉ line) (body : List Char) :
    (line ++ headEnd ++ body).dropInfix? headEnd = some (line, body) := by
  refine dropInfix?_append_pattern ?_ body
  induction line with
  | nil => rfl
  | cons x xs ih =>
    obtain ⟨hx, hxs⟩ := List.ne_and_not_mem_of_not_mem_cons hline
    have hn : ¬ headEnd <+: x :: (xs ++ headEnd) := by
      cases xs with
      | nil => simp [headEnd, lineEnd]
      | cons y ys =>
        have hy : '\n' ≠ y := fun h => hxs (h ▸ List.mem_cons_self)
        simp [headEnd, lineEnd, hy]
    rw [List.cons_append, dropInfix?_cons hn, ih hxs]
    rfl

theorem not_lineEnd_prefix {line : List Char} (hline : '\n' ∉ line) (hne : line ≠ [])
    (rest : List Char) : ¬ lineEnd <+: line ++ lineEnd ++ rest := by
  cases line with
  | nil => exact absurd rfl hne
  | cons x xs => cases xs with
    | nil => simp [lineEnd]
    | cons y ys =>
      have hy : '\n' ≠ y := fun h => hline (by simp [← h])
      simp [lineEnd, hy]

theorem lines_append {line : List Char} (hline : '\n' ∉ line) (rest : List Char) :
    Message.lines (line ++ lineEnd ++ rest) = line :: Message.lines rest := by
  induction line with
  | nil => rfl
  | cons x xs ih =>
    obtain ⟨hx, hxs⟩ := List.ne_and_not_mem_of_not_mem_cons hline
    rw [List.cons_append, List.cons_append, Message.lines, ih hxs]
    rintro rest' rfl hr
    cases xs with
    | nil => simp [lineEnd] at hr
    | cons y ys => exact hxs (by simp_all)

theorem lines_single {line : List Char} (hline : '\n' ∉ line) : Message.lines line = [line] := by
  induction line with
  | nil => rfl
  | cons x xs ih =>
    obtain ⟨hx, hxs⟩ := List.ne_and_not_mem_of_not_mem_cons hline
    rw [Message.lines, ih hxs]
    rintro rest' rfl rfl
    exact hxs (by simp)

theorem cut_write {start : List Char} {fields : List (List Char)} (body : List Char)
    (hstart : '\n' ∉ start) (hfields : ∀ line ∈ fields, '\n' ∉ line ∧ line ≠ []) :
    ∃ head, (Message.write ⟨start, fields, body⟩).dropInfix? headEnd = some (head, body) ∧
      Message.lines head = start :: fields := by
  induction fields generalizing start with
  | nil =>
    refine ⟨start, ?_, lines_single hstart⟩
    simpa [Message.write, headEnd] using dropInfix?_lastLine hstart body
  | cons field fields ih =>
    obtain ⟨hline, hne⟩ := hfields field (by simp)
    obtain ⟨head, hhead, hlines⟩ := ih hline fun l hl => hfields l (List.mem_cons_of_mem _ hl)
    refine ⟨start ++ lineEnd ++ head, ?_, by rw [lines_append hstart, hlines]⟩
    have hw : Message.write ⟨start, field :: fields, body⟩ =
        start ++ lineEnd ++ Message.write ⟨field, fields, body⟩ := by simp [Message.write]
    have hn : ¬ lineEnd <+: Message.write ⟨field, fields, body⟩ := by
      simpa [Message.write] using not_lineEnd_prefix hline hne
        (fields.flatMap (fun line => line ++ lineEnd) ++ lineEnd ++ body)
    rw [hw, dropInfix?_line hstart hn, hhead]
    rfl

/-- The head of a message with the empty line that ends it. -/
def Message.writeHead (m : Message) : List Char :=
  m.startLine ++ lineEnd ++ m.fieldLines.flatMap (fun line => line ++ lineEnd) ++ lineEnd

/-- One line feed for each line. -/
theorem Message.count_writeHead (m : Message) (hstart : '\n' ∉ m.startLine)
    (hfields : ∀ line ∈ m.fieldLines, '\n' ∉ line) :
    m.writeHead.count '\n' = m.fieldLines.length + 2 := by
  have hend : lineEnd.count '\n' = 1 := by decide
  have hlines : ∀ lines : List (List Char), (∀ line ∈ lines, '\n' ∉ line) →
      (lines.flatMap fun line => line ++ lineEnd).count '\n' = lines.length := by
    intro lines
    induction lines with
    | nil => exact fun _ => rfl
    | cons line lines ih =>
      intro h
      have hline : line.count '\n' = 0 := List.count_eq_zero.mpr (h line (by simp))
      have hrest := ih fun l hl => h l (List.mem_cons_of_mem _ hl)
      rw [List.flatMap_cons, List.count_append, List.count_append, hrest, hline, hend,
        List.length_cons]
      omega
  rw [writeHead, List.count_append, List.count_append, List.count_append, hlines _ hfields,
    List.count_eq_zero.mpr hstart, hend]
  omega

/-- The first empty line of a written message is the one in front of its body. -/
theorem Message.cut_writeHead (m : Message) (hstart : '\n' ∉ m.startLine)
    (hfields : ∀ line ∈ m.fieldLines, '\n' ∉ line ∧ line ≠ []) :
    ∃ head, m.write.dropInfix? headEnd = some (head, m.body) ∧ head ++ headEnd = m.writeHead := by
  obtain ⟨head, hhead, -⟩ := cut_write m.body hstart hfields
  refine ⟨head, hhead, ?_⟩
  have htext : m.writeHead ++ m.body = head ++ headEnd ++ m.body := dropInfix?_eq_some hhead
  exact (List.append_cancel_right htext).symm

/-- What has been written is read back. -/
theorem Message.parse_write (m : Message) (hstart : '\n' ∉ m.startLine)
    (hfields : ∀ line ∈ m.fieldLines, '\n' ∉ line ∧ line ≠ []) : parse m.write = some m := by
  obtain ⟨head, hhead, hlines⟩ := cut_write m.body hstart hfields
  rw [parse, hhead]
  simp [hlines]

end RoutineHttp.Lib
