import RoutineHttp.HeaderRoundTrip
import RoutineHttp.ReflectedInput
import RoutineHttp.HttpSession
import RoutineHttp.Lib.Framing

/-! Responses on one stream, read the way a session reads a message: the head up to its
empty line, the header parser, as many bytes as the length says. -/
namespace RoutineHttp.ResponseDecoding
open Lib HttpSession HeaderRoundTrip ResponseFraming ReflectedInput

/-- What a peer of this library finds in a message. -/
structure ReadMessage where
  startLine : Str
  headers : Headers
  body : Str

/-- The body behind a head, as long as its length says. -/
def readBody (startLine : Str) (headers : Headers) (tail : Str) : Option (ReadMessage × Str) :=
  match contentLength headers with
  | .error _ => none
  | .ok length => if length ≤ tail.length then
      some (⟨startLine, headers, tail.take length⟩, tail.drop length) else none

/-- The message at the front of a stream. -/
def readMessage : Reader Char ReadMessage := fun stream =>
  (stream.dropInfix? headEnd).bind fun cut =>
    (getline (cut.1 ++ crlf) '\n').bind fun (line, fields) =>
      match Headers.initFromStream {} fields with
      | .error _ => none
      | .ok headers => readBody line.dropLast headers cut.2

/-- A response that has been written: its fields are of the kind the header parser stores,
and its body has a length that fits. -/
structure WrittenResponse where
  response : Response
  now : Tm
  order : IterationOrder HeaderField
  text : Str
  written : Response
  body : Str
  prepared : response.prepareResponse now order = .ok (text, written)
  bodyText : response.bodyText = .ok body
  fields : ∀ e ∈ response.headers.headers.entries, Rewritable e
  fits : body.length < sizeLimit

/-- The message is the response: its status line, its completed headers, its body. -/
def Carries (w : WrittenResponse) (m : ReadMessage) : Prop :=
  m.startLine = w.response.statusLine ∧
    m.headers.headers.entries.Perm w.written.headers.headers.entries ∧ m.body = w.body

theorem rewritable_of_value {name : Str} (hlen : 2 ≤ name.length) (hcolon : ':' ∉ name.drop 2)
    (hlower : name.map Char.toLower = name) (hline : '\n' ∉ name) (hhead : name.head? ≠ some '\r')
    {value : Str} (hvalue : '\n' ∉ value) : Rewritable ⟨name, value⟩ :=
  ⟨⟨hlen, hcolon, hlower, hline, hvalue⟩, hhead⟩

/-- The completed headers have the length of the body, and the parser can store them all. -/
theorem completeHeaders_ok {r : Response} {now : Tm} {body : Str} (hbody : r.bodyText = .ok body) :
    r.completeHeaders now = .ok ((r.defaultHeaders now).assign "content-length".toList
      (toDecimal body.length)) := by
  cases hb : r.body with
  | none =>
    have hzero : "0".toList = toDecimal 0 := by decide
    have hnil : body = [] := by
      rw [Response.bodyText, hb] at hbody
      exact (Except.ok.inj hbody).symm
    simp only [Response.completeHeaders, hb, hzero, hnil, List.length_nil]
  | some storage =>
    have hsize : storage.size = .ok body.length := by
      rw [Response.bodyText, hb] at hbody
      cases storage with
      | memory data =>
        obtain rfl := Except.ok.inj hbody
        rfl
      | json data =>
        have hstring : data.getString = .ok body := hbody
        rw [BodyStorage.size, hstring]
        rfl
    simp only [Response.completeHeaders, hb, hsize, bind, Except.bind, pure, Except.pure]

namespace WrittenResponse

theorem written_eq (w : WrittenResponse) : w.written.headers =
    (w.response.defaultHeaders w.now).assign "content-length".toList
      (toDecimal w.body.length) := by
  obtain ⟨body, hbody, hheaders, -⟩ := prepareResponse_message w.prepared
  rw [w.bodyText] at hbody
  cases hbody
  rw [completeHeaders_ok w.bodyText] at hheaders
  exact (Except.ok.inj hheaders).symm

theorem text_eq (w : WrittenResponse) : w.text = Message.write ⟨w.response.statusLine,
    (w.order.order w.written.headers.headers.entries).map HeaderField.asString, w.body⟩ := by
  obtain ⟨body, hbody, -, htext⟩ := prepareResponse_message w.prepared
  rw [w.bodyText] at hbody
  cases hbody
  exact htext

theorem rewritable (w : WrittenResponse) : ∀ e ∈ w.written.headers.headers.entries,
    Rewritable e := by
  have hdefault : ∀ e ∈ (w.response.defaultHeaders w.now).headers.entries, Rewritable e :=
    forall_defaultHeaders w.fields
      (rewritable_of_value (by decide) (by decide) (by decide) (by decide) (by decide) (by decide))
      (rewritable_of_value (by decide) (by decide) (by decide) (by decide) (by decide)
        (lineText_currentHttpDate w.now).2)
      (rewritable_of_value (by decide) (by decide) (by decide) (by decide) (by decide) (by decide))
  rw [w.written_eq]
  intro e he
  obtain rfl | ⟨-, he⟩ := mem_entries_insert.mp he
  · exact rewritable_of_value (by decide) (by decide) (by decide) (by decide) (by decide)
      (lineText_toDecimal _).2
  · exact hdefault e he

theorem length_written (w : WrittenResponse) :
    w.written.headers.headers.lookup "content-length".toList = some (toDecimal w.body.length) := by
  rw [w.written_eq]
  exact AList.lookup_insert _

end WrittenResponse

theorem lookup_of_perm {h h' : Headers} (hperm : h'.headers.entries.Perm h.headers.entries)
    (name : Str) : h'.headers.lookup name = h.headers.lookup name := by
  refine Option.ext fun value => ?_
  rw [← Option.mem_def, ← Option.mem_def, AList.mem_lookup_iff, AList.mem_lookup_iff,
    hperm.mem_iff]

/-- The parser stores the fields of a written head again. -/
theorem read_fields (w : WrittenResponse) : ∃ h : Headers, Headers.initFromStream {}
      (fieldsText (w.order.order w.written.headers.headers.entries)) = .ok h ∧
    h.headers.entries.Perm w.written.headers.headers.entries := by
  have hperm := w.order.perm w.written.headers.headers.entries
  have hrw : ∀ e ∈ w.order.order w.written.headers.headers.entries, Rewritable e :=
    fun e he => w.rewritable e (hperm.mem_iff.mp he)
  have hnodup := (List.perm_nodupKeys hperm).mpr w.written.headers.headers.nodupKeys
  have hlines := getlines_fieldsText (fun e he => ⟨(hrw e he).nameLine, (hrw e he).valueLine⟩) []
  have hparse := parseLines_fields hrw {} []
  refine ⟨insertAll {} (w.order.order w.written.headers.headers.entries), ?_, ?_⟩
  · rw [List.append_nil] at hlines
    rw [Headers.initFromStream, hlines]
    exact hparse
  · have hinsert := insertAll_perm hnodup (h := {}) fun field _ => AList.notMem_empty field.1
    rw [show ({} : Headers).headers.entries = [] from rfl, List.append_nil] at hinsert
    exact hinsert.trans hperm

/-- The end of the head is found where it was written, whatever follows the text. -/
theorem cut_text (w : WrittenResponse) (rest : Str) : ∃ front,
    (w.text ++ rest).dropInfix? headEnd = some (front, w.body ++ rest) ∧
      front ++ crlf = w.response.statusLine ++ ['\r'] ++ '\n' ::
        fieldsText (w.order.order w.written.headers.headers.entries) := by
  have hfields : ∀ line ∈ (w.order.order w.written.headers.headers.entries).map
      HeaderField.asString, '\n' ∉ line ∧ line ≠ [] := by
    intro line hline
    obtain ⟨field, hfield, rfl⟩ := List.mem_map.mp hline
    have hf := w.rewritable field ((w.order.perm _).mem_iff.mp hfield)
    exact HeaderField.asString_line hf.nameLine hf.valueLine
  obtain ⟨front, hcut, hfront⟩ := Message.cut_writeHead ⟨w.response.statusLine,
    (w.order.order w.written.headers.headers.entries).map HeaderField.asString, w.body⟩
    (lineText_statusLine w.response).2 hfields
  rw [← w.text_eq] at hcut
  refine ⟨front, dropInfix?_append hcut rest, ?_⟩
  have hend : headEnd = crlf ++ crlf := rfl
  rw [Message.writeHead, List.flatMap_map, hend, ← List.append_assoc] at hfront
  rw [List.append_cancel_right hfront, fieldsText]
  simp [crlf, lineEnd]

theorem readBody_exact {headers : Headers} {body : Str}
    (hlength : headers.headers.lookup "content-length".toList = some (toDecimal body.length))
    (hfits : body.length < sizeLimit) (startLine rest : Str) :
    readBody startLine headers (body ++ rest) = some (⟨startLine, headers, body⟩, rest) := by
  have hget : headers.get Header.contentLength.name = .ok (toDecimal body.length) :=
    Headers.get_eq_ok_iff.mpr hlength
  have hread : contentLength headers = .ok body.length := by
    simp only [contentLength, hget, bind, Except.bind,
      stoull_of_isDecimal (isDecimal_toDecimal body.length) hfits]
  rw [readBody, hread]
  simp

/-- A written response is read back whatever follows it on the stream. -/
theorem reads_response (w : WrittenResponse) :
    ∃ m, Carries w m ∧ Reads readMessage w.text m := by
  obtain ⟨h, hread, hperm⟩ := read_fields w
  refine ⟨⟨w.response.statusLine, h, w.body⟩, ⟨rfl, hperm, rfl⟩, fun rest => ?_⟩
  obtain ⟨front, hcut, hfront⟩ := cut_text w rest
  have hline : '\n' ∉ w.response.statusLine ++ ['\r'] := by
    simp [(lineText_statusLine w.response).2]
  have hlength : h.headers.lookup "content-length".toList = some (toDecimal w.body.length) := by
    rw [lookup_of_perm hperm, w.length_written]
  rw [readMessage, hcut, Option.bind_some, hfront, getline, readUntil_append hline]
  simp only [Option.bind_some, hread, List.dropLast_concat]
  exact readBody_exact hlength w.fits _ rest

theorem text_ne_nil (w : WrittenResponse) : w.text ≠ [] := by
  have hstart := (Response.prepareResponse_text w.prepared).length_le
  have hlen := Response.length_statusLine w.response
  exact List.ne_nil_of_length_pos (by omega)

theorem exists_messages (ws : List WrittenResponse) : ∃ ms, List.Forall₂ Carries ws ms ∧
    List.Forall₂ (Reads readMessage) (ws.map WrittenResponse.text) ms := by
  induction ws with
  | nil => exact ⟨[], .nil, .nil⟩
  | cons w ws ih =>
    obtain ⟨m, hcarries, hreads⟩ := reads_response w
    obtain ⟨ms, hothers, hrest⟩ := ih
    exact ⟨m :: ms, .cons hcarries hothers, .cons hreads hrest⟩

end RoutineHttp.ResponseDecoding
