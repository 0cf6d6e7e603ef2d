import RoutineHttp.HeaderRoundTrip

/-! Field lines of the HTTP grammar, and what the header parser makes of a block of them. It
takes the name up to the first colon from the third character on and drops one character
after the colon, so blanks around a value are not optional for it. -/
namespace RoutineHttp.FieldGrammar
open Lib

def isTokenChar (c : Char) : Bool := c.isAlphanum || "!#$%&'*+-.^_`|~".toList.contains c

/-- A name, a colon, a value with blanks on both sides. -/
structure FieldLine where
  name : Str
  before : Str
  value : Str
  after : Str
  name_ne : name ≠ []
  name_token : ∀ c ∈ name, isTokenChar c = true
  before_blank : ∀ c ∈ before, Message.isBlank c = true
  after_blank : ∀ c ∈ after, Message.isBlank c = true
  value_line : LineText value
  value_head : ∀ c, value.head? = some c → Message.isBlank c = false
  value_last : ∀ c, value.getLast? = some c → Message.isBlank c = false

namespace FieldLine

/-- What stands between the colon and the line end. -/
def content (line : FieldLine) : Str := line.before ++ line.value ++ line.after

/-- The line as the parser meets it: the line feed is gone, the return is not. -/
def read (line : FieldLine) : Str := line.name ++ ':' :: (line.content ++ ['\r'])

def text (line : FieldLine) : Str := line.name ++ ':' :: line.content ++ crlf

def key (line : FieldLine) : Str := line.name.map Char.toLower

/-- One blank in front of a value and none behind it, one blank at most when there is no
value. -/
def OneBlank (line : FieldLine) : Prop :=
  if line.value = [] then line.before.length + line.after.length ≤ 1
  else line.before.length = 1 ∧ line.after = []

end FieldLine

def block (lines : List FieldLine) : Str := lines.flatMap FieldLine.text

/-- The headers hold the first value of each name of the block and no other name. -/
def Accepted (lines : List FieldLine) : Prop :=
  ∃ h : Headers, Headers.initFromStream {} (block lines) = .ok h ∧
    ∀ key value, h.headers.lookup key = some value ↔
      FirstBound (lines.map fun line => (line.key, line.value)) key value

theorem not_mem_of_isTokenChar {s : Str} (h : ∀ c ∈ s, isTokenChar c = true) {c : Char}
    (hc : isTokenChar c = false) : c ∉ s :=
  fun hmem => by rw [h c hmem] at hc; cases hc

theorem not_mem_of_isBlank {s : Str} (h : ∀ c ∈ s, Message.isBlank c = true) {c : Char}
    (hc : Message.isBlank c = false) : c ∉ s :=
  fun hmem => by rw [h c hmem] at hc; cases hc

namespace FieldLine

theorem name_lineText (line : FieldLine) : LineText line.name :=
  ⟨not_mem_of_isTokenChar line.name_token (by decide),
    not_mem_of_isTokenChar line.name_token (by decide)⟩

theorem content_lineText (line : FieldLine) : LineText line.content := by
  have hblank : ∀ s : Str, (∀ c ∈ s, Message.isBlank c = true) → LineText s := fun s hs =>
    ⟨not_mem_of_isBlank hs (by decide), not_mem_of_isBlank hs (by decide)⟩
  simp only [content, lineText_append, hblank _ line.before_blank, hblank _ line.after_blank,
    line.value_line, and_self]

theorem colon_notMem (line : FieldLine) : ':' ∉ line.name.drop 2 := fun hc =>
  not_mem_of_isTokenChar line.name_token (by decide) (List.mem_of_mem_drop hc)

theorem newline_notMem_read (line : FieldLine) : '\n' ∉ line.read := by
  simp [read, line.name_lineText.2, line.content_lineText.2]

theorem head_read (line : FieldLine) : line.read.head? ≠ some '\r' := by
  rw [read, List.head?_append_of_ne_nil _ line.name_ne]
  exact fun hc => line.name_lineText.1 (List.mem_of_mem_head? hc)

/-- Dropping one character leaves the value exactly when there is one blank to drop. -/
theorem drop_content_iff (line : FieldLine) : line.content.drop 1 = line.value ↔ line.OneBlank := by
  unfold OneBlank content
  by_cases hv : line.value = []
  · rw [if_pos hv, hv, List.append_nil, List.drop_eq_nil_iff, List.length_append]
  rw [if_neg hv]
  constructor
  · intro h
    have hlen := congrArg List.length h
    simp only [List.length_drop, List.length_append] at hlen
    have hpos : 0 < line.value.length := List.length_pos_of_ne_nil hv
    cases hb : line.before with
    | nil =>
      -- the value would have lost its own first character and ended in a blank
      rw [hb, List.length_nil] at hlen
      obtain ⟨blank, hafter⟩ := List.length_eq_one_iff.mp (show line.after.length = 1 by omega)
      have hlast : line.value.getLast? = some blank := by
        rw [← h, hb, hafter, List.nil_append, List.drop_append_of_le_length (by omega),
          List.getLast?_concat]
      have hblank := line.after_blank blank (by simp [hafter])
      rw [line.value_last blank hlast] at hblank
      cases hblank
    | cons c rest =>
      rw [hb, List.length_cons] at hlen
      exact ⟨by rw [List.length_cons]; omega, List.eq_nil_of_length_eq_zero (by omega)⟩
  · rintro ⟨hone, hnil⟩
    obtain ⟨blank, hb⟩ := List.length_eq_one_iff.mp hone
    rw [hb, hnil, List.append_nil]
    rfl

end FieldLine

/-- Lines with names of two characters are stored one after the other. -/
theorem parseLines_read {lines : List FieldLine} (hlen : ∀ line ∈ lines, 2 ≤ line.name.length)
    (h : Headers) : h.parseLines (lines.map FieldLine.read) =
      .ok ⟨emplaceAll h.headers (lines.map fun line => (line.key, line.content.drop 1))⟩ := by
  induction lines generalizing h with
  | nil => rfl
  | cons line lines ih =>
    rw [List.map_cons, Headers.parseLines, if_neg line.head_read, FieldLine.read,
      HeaderRoundTrip.parseLine_colon (hlen line (by simp)) line.colon_notMem]
    exact ih (fun other hother => hlen other (List.mem_cons_of_mem _ hother)) _

/-- The name of one character is skipped, or stored together with its colon. -/
theorem parseLine_short {line : FieldLine} (hlen : ¬ 2 ≤ line.name.length) {h h' : Headers}
    (hp : h.parseLine line.read = .ok h') :
    h' = h ∨ ∃ key value, ':' ∈ key ∧ h' = h.insert key value := by
  obtain rfl | ⟨n, value, hf, -, rfl⟩ := Headers.parseLine_some hp
  · exact Or.inl rfl
  refine Or.inr ⟨_, value, ?_, rfl⟩
  have hpos : 0 < line.name.length := List.length_pos_of_ne_nil line.name_ne
  obtain ⟨c, hc⟩ := List.length_eq_one_iff.mp (show line.name.length = 1 by omega)
  obtain ⟨m, rfl⟩ := Nat.exists_eq_add_of_le' (find_spec hf).1
  have hcolon : ':' ∈ line.read.take (m + 2) := by simp [FieldLine.read, hc]
  exact List.mem_map.mpr ⟨':', hcolon, rfl⟩

/-- Under a name the parser can store, every block of the grammar is read first wins. -/
theorem lookup_parseLines {lines : List FieldLine} {name : Str} (hlen : 2 ≤ name.length)
    (hcolon : ':' ∉ name) {h h' : Headers} {d : Dictionary Str Str}
    (hd : h.headers.lookup name = d.lookup name)
    (hp : h.parseLines (lines.map FieldLine.read) = .ok h') : h'.headers.lookup name =
      (emplaceAll d (lines.map fun line => (line.key, line.content.drop 1))).lookup name := by
  induction lines generalizing h d with
  | nil =>
    cases hp
    exact hd
  | cons line lines ih =>
    obtain ⟨hend, -⟩ | ⟨-, next, hline, hp⟩ := Headers.parseLines_cons_ok hp
    · exact absurd hend line.head_read
    refine ih ?_ hp
    rw [lookup_emplace]
    by_cases hname : 2 ≤ line.name.length
    · have hstored : next = h.insert line.key (line.content.drop 1) := by
        have hread := HeaderRoundTrip.parseLine_colon hname line.colon_notMem line.content h
        exact Except.ok.inj (hline.symm.trans hread)
      rw [hstored, Headers.insert, lookup_emplace, hd]
    · have hne : name ≠ line.key := by
        rintro rfl
        exact hname (by simpa [FieldLine.key] using hlen)
      rw [if_neg hne, Option.or_none]
      obtain rfl | ⟨key, value, hkey, rfl⟩ := parseLine_short hname hline
      · exact hd
      · have hother : name ≠ key := fun he => hcolon (he ▸ hkey)
        rw [Headers.insert, lookup_emplace, if_neg hother, Option.or_none, hd]

theorem getlines_block (lines : List FieldLine) :
    getlines (block lines) '\n' = lines.map FieldLine.read := by
  have htext : FieldLine.text = fun line => line.read ++ ['\n'] := by
    funext line
    simp [FieldLine.text, FieldLine.read, crlf, lineEnd]
  have hread := @records_flatMap Char _ FieldLine '\n' FieldLine.read lines
    (fun line _ => line.newline_notMem_read) []
  rw [List.append_nil, records, List.append_nil] at hread
  rw [block, htext, getlines, hread]

theorem initFromStream_block {lines : List FieldLine}
    (hlen : ∀ line ∈ lines, 2 ≤ line.name.length) : Headers.initFromStream {} (block lines) =
      .ok ⟨emplaceAll ∅ (lines.map fun line => (line.key, line.content.drop 1))⟩ := by
  rw [Headers.initFromStream, getlines_block, parseLines_read hlen]

/-- What a block that is accepted holds under a name. -/
theorem lookup_block {lines : List FieldLine} {name : Str} (hlen : 2 ≤ name.length)
    (hcolon : ':' ∉ name) {h : Headers} (hp : Headers.initFromStream {} (block lines) = .ok h) :
    (h.headers.lookup name = none ↔ ∀ line ∈ lines, line.key ≠ name) ∧
      ∀ value, h.headers.lookup name = some value ↔ ∃ line,
        FirstWith FieldLine.key lines line ∧ line.key = name ∧ line.content.drop 1 = value := by
  rw [Headers.initFromStream, getlines_block] at hp
  have hlookup := lookup_parseLines hlen hcolon (d := ∅) rfl hp
  refine ⟨?_, fun value => ?_⟩
  · rw [hlookup, AList.lookup_eq_none, mem_emplaceAll]
    simp [AList.notMem_empty]
  · rw [hlookup, lookup_emplaceAll_empty, firstBound_map_iff]

/-- A name of one character is not among the stored ones. -/
theorem two_le_length_of_accepted {lines : List FieldLine} (h : Accepted lines) :
    ∀ line ∈ lines, 2 ≤ line.name.length := by
  intro line hline
  obtain ⟨headers, hparse, hlookup⟩ := h
  obtain ⟨value, hfirst⟩ := exists_firstBound
    (List.mem_map_of_mem (f := fun line : FieldLine => (line.key, line.value)) hline)
  have hstored := AList.mem_lookup_iff.mp (Option.mem_def.mpr ((hlookup _ _).mpr hfirst))
  have hlen := (Headers.initFromStream_parsed hparse (by simp) _ hstored).nameLength
  simpa [FieldLine.key] using hlen

/-- A block of the grammar is read as it means exactly when no name has one character, and
the first line of each name has one blank in front of its value and none behind it. -/
theorem accepted_iff (lines : List FieldLine) : Accepted lines ↔
    (∀ line ∈ lines, 2 ≤ line.name.length) ∧
      ∀ line, FirstWith FieldLine.key lines line → line.OneBlank := by
  have hstored : (∀ line ∈ lines, 2 ≤ line.name.length) → (Accepted lines ↔
      ∀ line, FirstWith FieldLine.key lines line → line.OneBlank) := by
    intro hlen
    have hparse := initFromStream_block hlen
    simp only [Accepted, hparse, Except.ok.injEq, exists_eq_left', lookup_emplaceAll_empty,
      ← FieldLine.drop_content_iff]
    exact firstBound_congr_iff
  constructor
  · intro h
    have hlen := two_le_length_of_accepted h
    exact ⟨hlen, (hstored hlen).mp h⟩
  · rintro ⟨hlen, hblank⟩
    exact (hstored hlen).mpr hblank

/-- A value right after the colon. -/
def tightHost : FieldLine where
  name := "Host".toList
  before := []
  value := "a".toList
  after := []
  name_ne := List.cons_ne_nil _ _
  name_token := List.all_eq_true.mp (show "Host".toList.all isTokenChar = true from rfl)
  before_blank := nofun
  after_blank := nofun
  value_line := by decide
  value_head := by rintro c ⟨⟩; rfl
  value_last := by rintro c ⟨⟩; rfl

/-- The value loses its first character. -/
theorem tight_value_lost : block [tightHost] = "Host:a\r\n".toList ∧
    Headers.initFromStream {} (block [tightHost]) =
      .ok ⟨emplaceAll ∅ [("host".toList, [])]⟩ ∧ ¬ Accepted [tightHost] := by
  have hparse : Headers.initFromStream {} (block [tightHost]) =
      .ok ⟨emplaceAll ∅ [("host".toList, [])]⟩ := rfl
  refine ⟨rfl, hparse, ?_⟩
  rintro ⟨h, hok, hlookup⟩
  rw [hparse] at hok
  cases hok
  have hfirst : FirstBound [(tightHost.key, tightHost.value)] tightHost.key tightHost.value :=
    ⟨[], [], rfl, nofun⟩
  cases (hlookup _ _).mpr hfirst

end RoutineHttp.FieldGrammar
