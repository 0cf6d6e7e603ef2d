import RoutineHttp.FieldGrammar
import RoutineHttp.Segmentation

/-! Requests in chunks. The session refuses one spelling of the header and hands on requests
with any other. -/
namespace RoutineHttp.ChunkedRequests
open HttpSession FieldGrammar Lib

def trim (s : Str) : Str :=
  ((s.dropWhile Message.isBlank).reverse.dropWhile Message.isBlank).reverse

/-- The members of all Transfer-Encoding values, in the order of the lines. -/
def codings (fields : List FieldLine) : List Str :=
  ((fields.filter fun field => decide (field.key = Header.transferEncoding.name)).flatMap
    fun field => (splitString field.value ',').map trim).filter fun coding => !coding.isEmpty

/-- The final coding is chunked, in any letter case. -/
def EndsChunked (fields : List FieldLine) : Prop :=
  ((codings fields).getLast?.map fun coding => coding.map Char.toLower) = some "chunked".toList

/-- The head whose first line and fields are these is the first thing on the wire. -/
def Arrives (segments : List Str) (line : Str) (fields : List FieldLine) : Prop :=
  ∃ bytes streambuf rest, collectUntil headEnd [] segments = some (bytes, streambuf, rest) ∧
    streambuf.take (bytes - 2) = line ++ '\n' :: block fields

/-- The callback gets `not_supported`, the session is closed and does nothing else. -/
def Refused (s : Scheduler) (segments : List Str) : Prop :=
  doReadHeaders s segments = ([], .error .notSupported) ∧
    runProcess s segments = ([.closed], .stopped)

/-- Between the colon and the line end stands one character and then the coding the session
compares with. -/
def PlainChunked (field : FieldLine) : Prop := ∃ c, field.content = c :: "chunked".toList

theorem plainChunked_iff {field : FieldLine} :
    PlainChunked field ↔ field.content.drop 1 = "chunked".toList := by
  unfold PlainChunked
  cases field.content with
  | nil => exact iff_of_false nofun nofun
  | cons c rest => simp

theorem exists_field_of_endsChunked {fields : List FieldLine} (h : EndsChunked fields) :
    ∃ field ∈ fields, field.key = Header.transferEncoding.name := by
  by_contra hnone
  have hfilter : (fields.filter fun field =>
      decide (field.key = Header.transferEncoding.name)) = [] :=
    List.filter_eq_nil_iff.mpr fun field hfield => by
      simpa using fun he => hnone ⟨field, hfield, he⟩
  rw [EndsChunked, codings, hfilter] at h
  cases h

theorem isChunked_iff {headers : Headers} : isChunked headers = true ↔
    headers.headers.lookup Header.contentLength.name = none ∧
      headers.headers.lookup Header.transferEncoding.name = some "chunked".toList := by
  have hvalue : holds headers Header.transferEncoding.name "chunked".toList = true ↔
      headers.headers.lookup Header.transferEncoding.name = some "chunked".toList := by
    rw [holds, Headers.contains, Bool.and_eq_true, decide_eq_true_eq, decide_eq_true_eq,
      Headers.get_eq_ok_iff, mem_iff_exists_lookup]
    exact ⟨fun h => h.2, fun h => ⟨⟨_, h⟩, h⟩⟩
  rw [isChunked, Bool.and_eq_true, hvalue, hasLength, Headers.contains, AList.lookup_eq_none]
  simp

/-- Reading a body never ends with `not_supported`. -/
theorem doReadBody_supported {fromString : Str → Option JsonValue} {headers : Headers}
    {body : Option BodyStorage} {buffer : Str} {segments : List Str} :
    doReadBody fromString headers body buffer segments ≠ .error .notSupported := by
  have hthrown : contentLength headers ≠ .error .notSupported := by
    unfold contentLength
    intro h
    split at h <;> cases h
  intro h
  unfold doReadBody at h
  cases hn : contentLength headers with
  | error ended =>
    simp only [hn, bind, Except.bind, Except.error.injEq] at h
    exact hthrown (h ▸ hn)
  | ok n =>
    simp only [hn, readMissing_eq, readExactly, bind, Except.bind] at h
    cases hc : collectExactly (sizeSub n buffer.length) segments with
    | none => simp [hc] at h
    | some got =>
      simp only [hc] at h
      cases body <;> cases h

theorem doReadHeaders_notSupported_iff {s : Scheduler} {segments rest : List Str} {bytes : Nat}
    {streambuf : Str} {object : Request}
    (hread : collectUntil headEnd [] segments = some (bytes, streambuf, rest))
    (hparse : Request.ofRaw (streambuf.take (bytes - 2)) = .ok object) :
    doReadHeaders s segments = ([], .error .notSupported) ↔ isChunked object.headers = true := by
  unfold doReadHeaders
  simp only [hread, hparse]
  cases isChunked object.headers with
  | true => simp
  | false =>
    cases hasLength object.headers with
    | false => simp
    | true =>
      refine iff_of_false (fun h => ?_) Bool.false_ne_true
      have hbody := congrArg Prod.snd h
      simp only [Bool.false_eq_true, if_false, if_true] at hbody
      cases hr : doReadBody s.fromString (doPrepareBody s object).2.headers
          (doPrepareBody s object).2.body (streambuf.drop bytes) rest with
      | error ended =>
        rw [hr] at hbody
        cases hbody
        exact doReadBody_supported hr
      | ok got =>
        rw [hr] at hbody
        cases hbody

theorem runProcess_of_notSupported {s : Scheduler} {segments : List Str}
    (h : doReadHeaders s segments = ([], .error .notSupported)) :
    runProcess s segments = ([.closed], .stopped) := by
  have honce : processOnce s segments = ([.closed], .stopped) := by rw [processOnce, h]; rfl
  rw [runProcess]
  split
  · next events rest heq => rw [honce] at heq; cases heq
  · exact honce

theorem ofRaw_headers {line : Str} {fields : List FieldLine} {object : Request}
    (hline : '\n' ∉ line)
    (hparse : Request.ofRaw (line ++ '\n' :: block fields) = .ok object) :
    Headers.initFromStream {} (block fields) = .ok object.headers := by
  obtain ⟨method, target, version, headers, -, -, -, hheaders, rfl⟩ := Request.ofRaw_ok hparse
  rw [getline, readUntil_append hline] at hheaders
  exact hheaders

/-- A request whose final coding is chunked is refused exactly when it has no Content-Length,
and its first Transfer-Encoding is spelled as the session compares it. -/
theorem refused_iff (s : Scheduler) {segments : List Str} {line : Str} {fields : List FieldLine}
    {object : Request} (harrives : Arrives segments line fields) (hline : '\n' ∉ line)
    (hparse : Request.ofRaw (line ++ '\n' :: block fields) = .ok object)
    (hchunked : EndsChunked fields) : Refused s segments ↔
      (∀ field ∈ fields, field.key ≠ Header.contentLength.name) ∧
        ∀ field, FirstWith FieldLine.key fields field →
          field.key = Header.transferEncoding.name → PlainChunked field := by
  obtain ⟨bytes, streambuf, rest, hread, hhead⟩ := harrives
  have hheaders := ofRaw_headers hline hparse
  have hlength := (@lookup_block fields Header.contentLength.name (by decide) (by decide) _
    hheaders).1
  have hcoding := (@lookup_block fields Header.transferEncoding.name (by decide) (by decide) _
    hheaders).2
  rw [← hhead] at hparse
  have hrefused : Refused s segments ↔ isChunked object.headers = true := by
    rw [← doReadHeaders_notSupported_iff hread hparse]
    exact ⟨fun h => h.1, fun h => ⟨h, runProcess_of_notSupported h⟩⟩
  rw [hrefused, isChunked_iff, hlength, hcoding]
  refine and_congr_right fun _ => ?_
  simp only [plainChunked_iff]
  constructor
  · rintro ⟨first, hfirst, hkey, hvalue⟩ field hfield hname
    rw [← hvalue]
    exact congrArg (fun f => f.content.drop 1) (hfield.unique hfirst (hname.trans hkey.symm))
  · intro h
    obtain ⟨field, hfield, hname⟩ := exists_field_of_endsChunked hchunked
    obtain ⟨first, hfirst, hkey⟩ := exists_firstWith (k := FieldLine.key) hfield
    exact ⟨first, hfirst, hkey.trans hname, h first hfirst (hkey.trans hname)⟩

/-- A Transfer-Encoding line with one blank in front of its value. -/
def codingLine (value : Str) (hline : LineText value)
    (hhead : ∀ c, value.head? = some c → Message.isBlank c = false)
    (hlast : ∀ c, value.getLast? = some c → Message.isBlank c = false) : FieldLine where
  name := "Transfer-Encoding".toList
  before := [' ']
  value := value
  after := []
  name_ne := List.cons_ne_nil _ _
  name_token := List.all_eq_true.mp
    (show "Transfer-Encoding".toList.all isTokenChar = true from rfl)
  before_blank := fun c hc => by rw [List.mem_singleton.mp hc]; rfl
  after_blank := List.forall_mem_nil _
  value_line := hline
  value_head := hhead
  value_last := hlast

def capitalLine : FieldLine :=
  codingLine "Chunked".toList (by decide) (by rintro c ⟨⟩; rfl) (by rintro c ⟨⟩; rfl)

def plainLine : FieldLine :=
  codingLine "chunked".toList (by decide) (by rintro c ⟨⟩; rfl) (by rintro c ⟨⟩; rfl)

def capitalHead : Str := "POST /a HTTP/1.1\r\nTransfer-Encoding: Chunked\r\n\r\n".toList

def plainHead : Str := "POST /a HTTP/1.1\r\nTransfer-Encoding: chunked\r\n\r\n".toList

/-- With a capital letter the request is handed on, and its chunks are the next request. -/
theorem capital_dispatched :
    Arrives [capitalHead] "POST /a HTTP/1.1\r".toList [capitalLine] ∧ EndsChunked [capitalLine] ∧
    (∃ read, doReadHeaders Segmentation.noRouter [capitalHead] = ([], .ok read)) ∧
    ¬ Refused Segmentation.noRouter [capitalHead] := by
  have hread : ∃ read, doReadHeaders Segmentation.noRouter [capitalHead] = ([], .ok read) :=
    ⟨_, rfl⟩
  refine ⟨⟨_, _, _, rfl, rfl⟩, rfl, hread, fun h => ?_⟩
  obtain ⟨read, hread⟩ := hread
  have hrefused := h.1
  rw [hread] at hrefused
  cases hrefused

theorem refused_iff_plain : Refused Segmentation.noRouter [plainHead] := by
  have hparsed : ∃ object, Request.ofRaw
      ("POST /a HTTP/1.1\r".toList ++ '\n' :: block [plainLine]) = .ok object := ⟨_, rfl⟩
  obtain ⟨object, hparse⟩ := hparsed
  refine (refused_iff Segmentation.noRouter ⟨_, _, _, rfl, rfl⟩ (by decide) hparse rfl).mpr ⟨?_, ?_⟩
  · exact List.forall_mem_singleton.mpr (by decide)
  · rintro field ⟨before, after, heq, -⟩ -
    have hmem : field ∈ [plainLine] := by rw [heq]; simp
    rw [List.mem_singleton.mp hmem]
    exact ⟨' ', rfl⟩

end RoutineHttp.ChunkedRequests
