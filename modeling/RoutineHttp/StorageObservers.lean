import RoutineHttp.BodyStorage

/-! What the observers of a body storage say about its content: `size`, `as_string`, `read` and
the storage written anew from them. A JSON body shows the characters of a string value and
throws for any other value. -/
namespace RoutineHttp.BodyStorage

/-- A copy of the bytes. -/
def read : BodyStorage → Except Fault Str
  | .memory data => .ok data
  | .json data => data.getString

/-- `write` of a vector: a memory body grows by its bytes, a JSON body writes them as a string. -/
def writeVector (fromString : Str → Option JsonValue) (storage : BodyStorage) (buffer : Str) :
    BodyStorage :=
  storage.write fromString buffer

/-- `write` of a stream buffer, and what stays in the buffer: a memory body consumes it. -/
def writeStreambuf (fromString : Str → Option JsonValue) :
    BodyStorage → Str → BodyStorage × Str
  | .memory data, buffer => (.memory (data ++ buffer), [])
  | .json data, buffer => (write fromString (.json data) buffer, buffer)

/-- `write` of a string that is moved from. -/
def writeMoved (fromString : Str → Option JsonValue) (storage : BodyStorage) (buffer : Str) :
    BodyStorage :=
  storage.write fromString buffer

/-- The ways to put a content into a storage. -/
inductive WriteWay where
  | vector | streambuf | string | moved | assignment
  deriving DecidableEq, Repr

def store (fromString : Str → Option JsonValue) (way : WriteWay) (storage : BodyStorage)
    (content : Str) : BodyStorage :=
  match way with
  | .vector => storage.writeVector fromString content
  | .streambuf => (storage.writeStreambuf fromString content).1
  | .string => storage.write fromString content
  | .moved => storage.writeMoved fromString content
  | .assignment => storage.assign fromString content

def isMemory : BodyStorage → Bool
  | .memory _ => true
  | .json _ => false

/-- A new storage of the same kind. -/
def fresh : BodyStorage → BodyStorage
  | .memory _ => emptyMemory
  | .json _ => emptyJson

/-- A memory body takes every content, a JSON body the texts that can be parsed. -/
def Accepts (fromString : Str → Option JsonValue) : BodyStorage → Str → Prop
  | .memory _, _ => True
  | .json _, content => ∃ value, fromString content = some value

/-- The observers agree and do not throw, and their bytes written into a new storage make an
equal one. -/
def Faithful (fromString : Str → Option JsonValue) (storage : BodyStorage) : Prop :=
  ∃ size text bytes, storage.size = .ok size ∧ storage.asString = .ok text ∧
    storage.read = .ok bytes ∧ size = text.length ∧ size = bytes.length ∧ text = bytes ∧
    ∀ way, store fromString way storage.fresh text = storage

/-- The JSON text of a string that is its own content. -/
def ShowsItself (fromString : Str → Option JsonValue) (content : Str) : Prop :=
  ∃ text, fromString content = some (.string text) ∧ fromString text = some (.string text)

variable {fromString : Str → Option JsonValue}

theorem getString_eq_ok_iff {value : JsonValue} {text : Str} :
    value.getString = .ok text ↔ value = .string text := by
  cases value <;> simp [JsonValue.getString]

theorem store_memory (way : WriteWay) (data content : Str) :
    ∃ data', store fromString way (.memory data) content = .memory data' := by
  cases way <;> exact ⟨_, rfl⟩

/-- A new memory body has the bytes it is written with, whichever way. -/
theorem store_emptyMemory (way : WriteWay) (content : Str) :
    store fromString way emptyMemory content = .memory content := by
  cases way <;> rfl

/-- All ways leave a JSON body with what the parser made of the content. -/
theorem store_json (way : WriteWay) (data : JsonValue) (content : Str) :
    store fromString way (.json data) content = .json ((fromString content).getD data) := by
  cases way <;> rfl

theorem faithful_memory (data : Str) : Faithful fromString (.memory data) :=
  ⟨data.length, data, data, rfl, rfl, rfl, rfl, rfl, rfl, fun way => store_emptyMemory way data⟩

/-- A JSON value is shown as it is exactly when it is a string that parses to itself. -/
theorem faithful_json_iff (value : JsonValue) : Faithful fromString (.json value) ↔
    ∃ text, value = .string text ∧ fromString text = some (.string text) := by
  constructor
  · rintro ⟨size, text, bytes, -, htext, -, -, -, -, hagain⟩
    obtain rfl := getString_eq_ok_iff.mp htext
    refine ⟨text, rfl, ?_⟩
    have hwritten := hagain .string
    rw [fresh, emptyJson, store_json] at hwritten
    cases hparse : fromString text with
    | none =>
      rw [hparse] at hwritten
      cases hwritten
    | some value =>
      rw [hparse, Option.getD_some] at hwritten
      cases hwritten
      rfl
  · rintro ⟨text, rfl, hparse⟩
    refine ⟨text.length, text, text, rfl, rfl, rfl, rfl, rfl, rfl, fun way => ?_⟩
    rw [fresh, emptyJson, store_json, hparse, Option.getD_some]

/-- Whatever was in a storage and whichever way an accepted content got there, the observers
are faithful exactly for a memory body and for the text of a string that is its own content. -/
theorem faithful_iff (fromString : Str → Option JsonValue) (storage : BodyStorage) (way : WriteWay)
    (content : Str) (haccepts : Accepts fromString storage content) :
    Faithful fromString (store fromString way storage content) ↔
      storage.isMemory = true ∨ ShowsItself fromString content := by
  cases storage with
  | memory data =>
    obtain ⟨data', hdata⟩ := @store_memory fromString way data content
    rw [hdata]
    exact iff_of_true (faithful_memory data') (Or.inl rfl)
  | json data =>
    obtain ⟨value, hvalue⟩ := haccepts
    rw [store_json, hvalue, Option.getD_some, faithful_json_iff, ShowsItself, hvalue]
    simp [isMemory]

/-- Where the text of a string is longer than the string, as quoting makes it, no content of a
JSON body is shown as it is. -/
theorem not_showsItself (hquoted : ∀ content text, fromString content = some (.string text) →
    text.length < content.length) (content : Str) : ¬ ShowsItself fromString content := by
  rintro ⟨text, -, hagain⟩
  exact Nat.lt_irrefl _ (hquoted text text hagain)

/-- A parser that knows an object and a string. -/
def parseSample (content : Str) : Option JsonValue :=
  if content = ['{', '}'] then some (.object [])
  else if content = ['"', 'a', '"'] then some (.string ['a']) else none

/-- The observers throw for an object. Those of a string leave the quotes out, without which
the text is not parsed. -/
theorem object_throws : ∃ storage shown,
    store parseSample .string emptyJson ['{', '}'] = storage ∧
    storage.size = .error .wrongJsonType ∧ storage.asString = .error .wrongJsonType ∧
    storage.read = .error .wrongJsonType ∧ ¬ Faithful parseSample storage ∧
    store parseSample .string emptyJson ['"', 'a', '"'] = shown ∧
    shown.asString = .ok ['a'] ∧ store parseSample .string emptyJson ['a'] = emptyJson ∧
    ¬ Faithful parseSample shown := by
  refine ⟨_, _, rfl, rfl, rfl, rfl, fun h => ?_, rfl, rfl, rfl, fun h => ?_⟩
  · obtain ⟨text, htext, -⟩ := (faithful_json_iff _).mp h
    cases htext
  · obtain ⟨text, htext, hparse⟩ := (faithful_json_iff _).mp h
    cases htext
    cases hparse

theorem faithful_iff_sample :
    Faithful parseSample (store parseSample .streambuf (.memory ['b']) ['{', '}']) ∧
    ¬ Faithful parseSample (store parseSample .moved emptyJson ['{', '}']) := by
  refine ⟨(faithful_iff parseSample (.memory ['b']) .streambuf ['{', '}'] trivial).mpr (Or.inl rfl),
    fun h => ?_⟩
  obtain hmemory | ⟨text, htext, -⟩ :=
    (faithful_iff parseSample emptyJson .moved ['{', '}'] ⟨_, rfl⟩).mp h
  · cases hmemory
  · cases htext

end RoutineHttp.BodyStorage
