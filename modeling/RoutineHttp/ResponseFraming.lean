import RoutineHttp.Response

/-! The framing of a response: what `prepare_response` writes is one message whose
content-length field counts its body, as long as no other spelling of that name is stored. -/
namespace RoutineHttp.ResponseFraming
open Lib

/-- A field that reads back as itself: a name without colon, nothing leaving its line. -/
structure PlainField (field : HeaderField) : Prop where
  nameNonempty : field.1 ≠ []
  nameColon : ':' ∉ field.1
  nameLine : LineText field.1
  valueLine : LineText field.2

/-- The text is a status line, the fields and the body, and exactly one field named
content-length in some case gives the number of bytes after the head. -/
def Framed (r : Response) (now : Tm) (order : IterationOrder HeaderField) : Prop :=
  ∃ text r', r.prepareResponse now order = .ok (text, r') ∧ ∃ m, Message.parse text = some m ∧
    m.startLine = r.statusLine ∧
    m.fieldLines = (order.order r'.headers.headers.entries).map HeaderField.asString ∧
    r.bodyText = .ok m.body ∧
    m.valuesOf "content-length".toList = [toDecimal m.body.length]

theorem forall_defaultHeaders {P : HeaderField → Prop} {r : Response} {now : Tm}
    (hr : ∀ e ∈ r.headers.headers.entries, P e)
    (hserver : P ⟨"server".toList, "RoutineHttpLibrary".toList⟩)
    (hdate : P ⟨"date".toList, currentHttpDate now⟩)
    (htype : P ⟨"content-type".toList, "text/plain".toList⟩) :
    ∀ e ∈ (r.defaultHeaders now).headers.entries, P e := by
  have hbase := Headers.forall_insert (Headers.forall_insert hr hserver) hdate
  rw [Response.defaultHeaders_eq]
  dsimp only
  split
  · exact Headers.forall_insert hbase htype
  · exact hbase

theorem mem_defaultHeaders {r : Response} (now : Tm) {name : Str} (h : name ∈ r.headers.headers) :
    name ∈ (r.defaultHeaders now).headers := by
  rw [Response.defaultHeaders_eq]
  dsimp only
  split <;> simp [Headers.mem_insert, h]

theorem PlainField.of_value {name : Str} (hn : name ≠ []) (hc : ':' ∉ name) (hl : LineText name)
    {value : Str} (hv : LineText value) : PlainField ⟨name, value⟩ := ⟨hn, hc, hl, hv⟩

theorem plainField_contentLength (n : Nat) : PlainField ⟨"content-length".toList, toDecimal n⟩ :=
  .of_value (by decide) (by decide) (by decide) (lineText_toDecimal n)

theorem plainField_defaultHeaders {r : Response} {now : Tm}
    (hr : ∀ e ∈ r.headers.headers.entries, PlainField e) :
    ∀ e ∈ (r.defaultHeaders now).headers.entries, PlainField e :=
  forall_defaultHeaders hr (.of_value (by decide) (by decide) (by decide) (by decide))
    (.of_value (by decide) (by decide) (by decide) (lineText_currentHttpDate now))
    (.of_value (by decide) (by decide) (by decide) (by decide))

theorem lineText_line (status : Status) : LineText status.line := by
  cases status <;> decide +kernel

theorem lineText_statusLine (r : Response) : LineText r.statusLine :=
  (lineText_append _ _).mpr ⟨by decide, lineText_line r.status⟩

/-- A stored field and whether its name is content-length in some case. -/
def isContentLength (field : HeaderField) : Bool :=
  decide (field.1.map Char.toLower = "content-length".toList)

theorem isContentLength_eq_false {name : Str}
    (h : name.map Char.toLower ≠ "content-length".toList) (value : Str) :
    isContentLength ⟨name, value⟩ = false := decide_eq_false h

theorem valuesOf_eq {m : Message} {fields : List HeaderField}
    (hlines : m.fieldLines = fields.map HeaderField.asString)
    (hplain : ∀ field ∈ fields, PlainField field) :
    m.valuesOf "content-length".toList =
      (fields.filter isContentLength).map fun field => Message.fieldValue field.asString := by
  rw [Message.valuesOf, hlines, List.filter_map, List.map_map]
  congr 1
  refine List.filter_congr fun field hf => ?_
  simp only [Function.comp_apply, isContentLength, fieldName_asString (hplain field hf).nameColon]

/-- The message `prepare_response` writes for a body in memory or none. -/
def message (r : Response) (data : Str) (now : Tm) (order : IterationOrder HeaderField) : Message :=
  { startLine := r.statusLine
    fieldLines := (order.order ((r.defaultHeaders now).assign "content-length".toList
      (toDecimal data.length)).headers.entries).map HeaderField.asString
    body := data }

theorem bodyText_eq {r : Response} {data : Option Str}
    (hbody : r.body = data.map BodyStorage.memory) : r.bodyText = .ok (data.getD []) := by
  cases data <;> simp [Response.bodyText, hbody, BodyStorage.asString]

theorem completeHeaders_eq {r : Response} {data : Option Str}
    (hbody : r.body = data.map BodyStorage.memory) (now : Tm) :
    r.completeHeaders now = .ok ((r.defaultHeaders now).assign "content-length".toList
      (toDecimal (data.getD []).length)) := by
  cases data with
  | none =>
    have hzero : "0".toList = toDecimal 0 := by decide
    simp only [Response.completeHeaders, hbody, hzero, Option.map_none, Option.getD_none,
      List.length_nil]
  | some data =>
    simp only [Response.completeHeaders, hbody, Option.map_some]
    rfl

theorem prepareResponse_eq {r : Response} {data : Option Str}
    (hbody : r.body = data.map BodyStorage.memory) (now : Tm) (order : IterationOrder HeaderField) :
    r.prepareResponse now order = .ok (Message.write (message r (data.getD []) now order),
      { r with
        headers := (r.defaultHeaders now).assign "content-length".toList
          (toDecimal (data.getD []).length) }) := by
  rw [Response.prepareResponse, completeHeaders_eq hbody, bodyText_eq hbody, message, write_fields]
  rfl

theorem plainField_message {r : Response} {now : Tm} (data : Str)
    (order : IterationOrder HeaderField) (hr : ∀ e ∈ r.headers.headers.entries, PlainField e) :
    ∀ e ∈ order.order ((r.defaultHeaders now).assign "content-length".toList
      (toDecimal data.length)).headers.entries, PlainField e := by
  intro e he
  obtain rfl | ⟨-, he⟩ := mem_entries_insert.mp ((order.perm _).mem_iff.mp he)
  · exact plainField_contentLength data.length
  · exact plainField_defaultHeaders hr e he

theorem parse_message {r : Response} {now : Tm} (data : Str) (order : IterationOrder HeaderField)
    (hr : ∀ e ∈ r.headers.headers.entries, PlainField e) :
    Message.parse (Message.write (message r data now order)) = some (message r data now order) := by
  refine Message.parse_write _ (lineText_statusLine r).2 fun line hline => ?_
  obtain ⟨field, hfield, rfl⟩ := List.mem_map.mp hline
  have hplain := plainField_message data order hr field hfield
  exact HeaderField.asString_line hplain.nameLine.2 hplain.valueLine.2

/-- Among the default fields only the stored ones can be named content-length. -/
theorem isContentLength_defaultHeaders {r : Response} {now : Tm}
    (h : ∀ name ∈ r.headers.headers,
      name.map Char.toLower = "content-length".toList → name = "content-length".toList) :
    ∀ e ∈ (r.defaultHeaders now).headers.entries, isContentLength e = true →
      e.1 = "content-length".toList := by
  have hother : ∀ name value : Str, name.map Char.toLower ≠ "content-length".toList →
      isContentLength ⟨name, value⟩ = true → name = "content-length".toList := by
    intro name value hne hcl
    rw [isContentLength_eq_false hne] at hcl
    cases hcl
  refine forall_defaultHeaders (fun e he hcl => ?_) (hother _ _ (by decide))
    (hother _ _ (by decide)) (hother _ _ (by decide))
  exact h e.1 (mem_iff_exists_entry.mpr ⟨e.2, he⟩) (of_decide_eq_true hcl)

theorem spelling_of_framed {r : Response} {data : Option Str}
    (hbody : r.body = data.map BodyStorage.memory)
    (hplain : ∀ field ∈ r.headers.headers.entries, PlainField field) {now : Tm}
    {order : IterationOrder HeaderField} (h : Framed r now order) {name : Str}
    (hname : name ∈ r.headers.headers) (hlower : name.map Char.toLower = "content-length".toList) :
    name = "content-length".toList := by
  obtain ⟨text, r', htext, m, hm, -, -, -, hone⟩ := h
  rw [prepareResponse_eq hbody now order] at htext
  cases htext
  rw [parse_message (data.getD []) order hplain] at hm
  cases hm
  have hcount := congrArg List.length hone
  rw [valuesOf_eq (m := message r (data.getD []) now order) rfl
    (plainField_message (data.getD []) order hplain), List.length_map,
    List.length_singleton] at hcount
  obtain ⟨value, he⟩ := mem_iff_exists_entry.mp (mem_defaultHeaders now hname)
  exact eq_key_of_length_filter rfl hcount he (decide_eq_true hlower)

/-- A response is framed by the length of its body exactly when the name of that field is
stored in no other letter case. -/
theorem response_framed_iff {r : Response} {data : Option Str}
    (hbody : r.body = data.map BodyStorage.memory)
    (hplain : ∀ field ∈ r.headers.headers.entries, PlainField field) (now : Tm)
    (order : IterationOrder HeaderField) :
    Framed r now order ↔ ∀ name ∈ r.headers.headers,
      name.map Char.toLower = "content-length".toList → name = "content-length".toList := by
  constructor
  · intro h name hname hlower
    exact spelling_of_framed hbody hplain h hname hlower
  · intro h
    refine ⟨_, _, prepareResponse_eq hbody now order, _, parse_message (data.getD []) order hplain,
      rfl, rfl, bodyText_eq hbody, ?_⟩
    have hblank : ∀ c ∈ toDecimal (data.getD []).length, Message.isBlank c = false :=
      fun c hc => isBlank_of_mem_toDecimal hc
    rw [valuesOf_eq rfl (plainField_message (data.getD []) order hplain), Headers.assign,
      filter_order_insert rfl (isContentLength_defaultHeaders h), List.map_singleton,
      fieldValue_asString (plainField_contentLength _).nameColon hblank]
    rfl

def someDay : Tm := ⟨0, 0, 0, 1, 0, 126, 4⟩

/-- A handler's own Content-Length is sent beside the computed one. -/
theorem capitalised_length_twice :
    ¬ Framed (.ofText .ok (Headers.insert {} "Content-Length".toList "99".toList) "hello".toList)
      someDay (IterationOrder.stored _) := by
  intro h
  have hplain : ∀ field ∈ (Headers.insert {} "Content-Length".toList "99".toList).headers.entries,
      PlainField field := by
    intro field hf
    cases List.mem_singleton.mp hf
    exact .of_value (by decide) (by decide) (by decide) (by decide)
  have hspelling := @spelling_of_framed _ (some "hello".toList) rfl hplain _ _ h
    "Content-Length".toList (by decide) (by decide)
  exact absurd hspelling (by decide)

theorem response_framed_iff_hello :
    Framed (.ofText .ok {} "hello".toList) someDay (IterationOrder.stored _) :=
  (@response_framed_iff _ (some "hello".toList) rfl (by simp [Response.ofText]) someDay
    (IterationOrder.stored _)).mpr (by simp [Response.ofText])

end RoutineHttp.ResponseFraming
