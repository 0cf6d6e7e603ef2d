import RoutineHttp.Headers

/-! Writing headers and parsing them again. The parser cuts a line at the first colon
from the third character on, which is where the writer has put it. -/
namespace RoutineHttp.HeaderRoundTrip
open Lib

/-- The line of a field as the parser meets it: the line feed is gone, the return is not. -/
def fieldLine (field : HeaderField) : Str := field.asString ++ ['\r']

/-- Fields streamed in an order, each with its line end. -/
def fieldsText (fields : List HeaderField) : Str :=
  fields.flatMap fun field => field.asString ++ crlf

def insertAll (h : Headers) (fields : List HeaderField) : Headers :=
  fields.foldl (fun h field => h.insert field.1 field.2) h

/-- What makes a field survive: the parser's guarantees, and a first character that does
not end the block. -/
structure Rewritable (field : HeaderField) : Prop extends ParsedField field where
  nameHead : field.1.head? ≠ some '\r'

theorem find_colon {name : Str} (hlen : 2 ≤ name.length) (hcolon : ':' ∉ name.drop 2) (rest : Str) :
    find (name ++ ':' :: rest) ':' 2 = some name.length := by
  have hfind := find_append hcolon rest
  simp only [find, List.drop_zero, Nat.add_zero, Option.map_id'] at hfind
  rw [find, List.drop_append_of_le_length hlen, hfind, List.length_drop, Option.map_some,
    Nat.sub_add_cancel hlen]

/-- A line is cut into the name, in lower case, and what follows the character after the
colon. -/
theorem parseLine_colon {name : Str} (hlen : 2 ≤ name.length) (hcolon : ':' ∉ name.drop 2)
    (rest : Str) (h : Headers) : h.parseLine (name ++ ':' :: (rest ++ ['\r'])) =
      .ok (h.insert (name.map Char.toLower) (rest.drop 1)) := by
  have hfind := find_colon hlen hcolon (rest ++ ['\r'])
  have hsize : name.length + 2 ≤ (name ++ ':' :: (rest ++ ['\r'])).length := by
    simp only [List.length_append, List.length_cons, List.length_nil]
    omega
  have hlast : (name ++ ':' :: (rest ++ ['\r'])).dropLast = name ++ ':' :: rest := by
    rw [← List.cons_append, ← List.append_assoc, List.dropLast_concat]
  have hvalue : (name ++ ':' :: rest).drop (name.length + 2) = rest.drop 1 := by
    rw [List.drop_append, List.drop_of_length_le (by omega), Nat.add_sub_cancel_left]
    rfl
  rw [Headers.parseLine_eq hfind hsize, List.take_left, hlast, hvalue]

/-- A written line is cut into the name, in lower case, and the value. -/
theorem parseLine_fieldLine {field : HeaderField} (hlen : 2 ≤ field.1.length)
    (hcolon : ':' ∉ field.1.drop 2) (h : Headers) :
    h.parseLine (fieldLine field) = .ok (h.insert (field.1.map Char.toLower) field.2) := by
  have hline : fieldLine field = field.1 ++ ':' :: (' ' :: field.2 ++ ['\r']) := by
    simp [fieldLine, HeaderField.asString]
  rw [hline, parseLine_colon hlen hcolon]
  rfl

theorem getlines_fieldsText {fields : List HeaderField}
    (hf : ∀ field ∈ fields, '\n' ∉ field.1 ∧ '\n' ∉ field.2) (rest : Str) :
    getlines (fieldsText fields ++ rest) '\n' =
      fields.map fieldLine ++ getlines rest '\n' := by
  have hline : ∀ field ∈ fields, '\n' ∉ fieldLine field := by
    intro field hfield
    obtain ⟨hname, hvalue⟩ := hf field hfield
    simp [fieldLine, HeaderField.asString, hname, hvalue]
  have htext : fieldsText fields = fields.flatMap fun field => fieldLine field ++ ['\n'] := by
    simp [fieldsText, fieldLine, crlf, lineEnd]
  rw [htext, getlines, records_flatMap hline, getlines]

theorem head_fieldLine {field : HeaderField} (hr : Rewritable field) :
    (fieldLine field).head? ≠ some '\r' := by
  have hne : field.1 ≠ [] := List.ne_nil_of_length_pos (by have := hr.nameLength; omega)
  rw [fieldLine, HeaderField.asString, List.append_assoc, List.append_assoc,
    List.head?_append_of_ne_nil _ hne]
  exact hr.nameHead

/-- The written fields are stored one after the other, and parsing goes on behind them. -/
theorem parseLines_fields {fields : List HeaderField} (hf : ∀ field ∈ fields, Rewritable field)
    (h : Headers) (lines : List Str) :
    h.parseLines (fields.map fieldLine ++ lines) =
      (insertAll h fields).parseLines lines := by
  induction fields generalizing h with
  | nil => rfl
  | cons field fields ih =>
    have hr := hf field (by simp)
    rw [List.map_cons, List.cons_append, Headers.parseLines, if_neg (head_fieldLine hr),
      parseLine_fieldLine hr.nameLength hr.nameColon, hr.nameLower]
    exact ih (fun field' hm => hf field' (List.mem_cons_of_mem _ hm)) _

theorem insertAll_perm {fields : List HeaderField} {h : Headers} (hnodup : fields.NodupKeys)
    (hfresh : ∀ field ∈ fields, field.1 ∉ h.headers) :
    (insertAll h fields).headers.entries.Perm (fields ++ h.headers.entries) := by
  induction fields generalizing h with
  | nil => exact List.Perm.refl _
  | cons field fields ih =>
    obtain ⟨hfirst, hrest⟩ := List.nodupKeys_cons.mp hnodup
    have hnew : field.1 ∉ h.headers := hfresh field (by simp)
    have hentries : (h.insert field.1 field.2).headers.entries = field :: h.headers.entries := by
      rw [Headers.insert, emplace, if_neg hnew, AList.entries_insert_of_notMem hnew]
    have hperm := ih hrest (h := h.insert field.1 field.2) fun field' hm hin => by
      obtain heq | hin := Headers.mem_insert.mp hin
      · exact hfirst (heq ▸ List.mem_keys_of_mem hm)
      · exact hfresh field' (List.mem_cons_of_mem _ hm) hin
    rw [hentries] at hperm
    exact hperm.trans List.perm_middle

theorem parseLine_rewritable {h h' : Headers} {line : Str} (hline : '\n' ∉ line)
    (hhead : line.head? ≠ some '\r') (hp : h.parseLine line = .ok h')
    (hh : ∀ e ∈ h.headers.entries, Rewritable e) : ∀ e ∈ h'.headers.entries, Rewritable e := by
  have hparsed := Headers.parseLine_parsed hline hp fun e he => (hh e he).toParsedField
  obtain rfl | ⟨n, value, hf, -, rfl⟩ := Headers.parseLine_some hp
  · exact hh
  obtain ⟨hpos, hlen, -⟩ := find_spec hf
  have hnew : ((line.take n).map Char.toLower).head? ≠ some '\r' := by
    cases line with
    | nil => simp
    | cons c rest =>
      rw [show n = n - 1 + 1 by omega, List.take_succ_cons, List.map_cons, List.head?_cons]
      intro hc
      exact hhead (by rw [List.head?_cons, eq_of_toLower_eq (by decide) (Option.some.inj hc)])
  have hheads : ∀ e ∈ (h.insert ((line.take n).map Char.toLower) value).headers.entries,
      e.1.head? ≠ some '\r' :=
    Headers.forall_insert (fun e he => (hh e he).nameHead) hnew
  exact fun e he => ⟨hparsed e he, hheads e he⟩

/-- The parser stores only fields that survive being written. -/
theorem parseLines_rewritable {h h' : Headers} {lines : List Str}
    (hlines : ∀ line ∈ lines, '\n' ∉ line) (hp : h.parseLines lines = .ok h')
    (hh : ∀ e ∈ h.headers.entries, Rewritable e) : ∀ e ∈ h'.headers.entries, Rewritable e := by
  induction lines generalizing h with
  | nil => cases hp; exact hh
  | cons line lines ih =>
    obtain ⟨-, rfl⟩ | ⟨hhead, next, hline, hp⟩ := Headers.parseLines_cons_ok hp
    · exact hh
    · exact ih (fun l hm => hlines l (List.mem_cons_of_mem _ hm)) hp
        (parseLine_rewritable (hlines line (by simp)) hhead hline hh)

theorem initFromStream_rewritable {stream : Str} {h : Headers}
    (hp : Headers.initFromStream {} stream = .ok h) : ∀ e ∈ h.headers.entries, Rewritable e :=
  parseLines_rewritable (fun _ hl => not_mem_of_mem_records hl) hp (by simp)

/-- Reading written fields stores exactly them and goes on with what follows. -/
theorem initFromStream_fieldsText {h : Headers} {stream : Str}
    (hp : Headers.initFromStream {} stream = .ok h) {fields : List HeaderField}
    (hfields : fields.Perm h.headers.entries) (rest : Str) :
    ∃ h' : Headers, h'.headers.entries.Perm h.headers.entries ∧
      Headers.initFromStream {} (fieldsText fields ++ rest) = h'.parseLines (getlines rest '\n') := by
  have hrw : ∀ field ∈ fields, Rewritable field := fun field hm =>
    initFromStream_rewritable hp field (hfields.mem_iff.mp hm)
  have hnodup : fields.NodupKeys := (List.perm_nodupKeys hfields).mpr h.headers.nodupKeys
  refine ⟨insertAll {} fields, ?_, ?_⟩
  · have hperm := insertAll_perm hnodup (h := {}) fun field _ => AList.notMem_empty field.1
    rw [show ({} : Headers).headers.entries = [] from rfl, List.append_nil] at hperm
    exact hperm.trans hfields
  · rw [Headers.initFromStream, getlines_fieldsText fun field hm =>
      ⟨(hrw field hm).nameLine, (hrw field hm).valueLine⟩]
    exact parseLines_fields hrw {} _

/-- What the parser has read from any text it reads again from the fields written out, in
whatever order they are written. -/
theorem reparsed (s : Str) (h : Headers) (hp : Headers.initFromStream {} s = .ok h)
    (fields : List HeaderField) (hfields : fields.Perm h.headers.entries) :
    ∃ h' : Headers, Headers.initFromStream {} (fieldsText fields) = .ok h' ∧
      h'.headers.entries.Perm h.headers.entries := by
  obtain ⟨h', hperm, hread⟩ := initFromStream_fieldsText hp hfields []
  rw [List.append_nil] at hread
  exact ⟨h', hread, hperm⟩

def strayText : Str := "Host: a\r\n\n:x:Y: b:\r\r\nhost: c\r\nnone\nend:\r\n\rlast: d\r\n".toList

def strayHeaders : Headers :=
  insertAll {} [⟨"host".toList, "a".toList⟩, ⟨":x".toList, ": b:\r".toList⟩, ⟨"end".toList, []⟩]

theorem reparsed_stray : ∃ h' : Headers,
    Headers.initFromStream {} (fieldsText strayHeaders.headers.entries.reverse) = .ok h' ∧
      h'.headers.entries.Perm strayHeaders.headers.entries :=
  reparsed strayText strayHeaders rfl _ (List.reverse_perm _)

end RoutineHttp.HeaderRoundTrip
