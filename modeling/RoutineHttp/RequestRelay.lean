import RoutineHttp.QueryRoundTrip
import RoutineHttp.ResponseDecoding
import RoutineHttp.Segmentation

/-! Requests sent on by servers of this library. What one server writes for a request that it
has read, the next one reads as a well-formed request, which it can send on again. -/
namespace RoutineHttp.RequestRelay
open Lib HttpSession HeaderRoundTrip QueryRouting RequestFraming RequestRoundTrip QueryRoundTrip
open Segmentation ResponseDecoding

/-- A field the writer adds, as the parser stores it, where the request has none of its name. -/
def added (r : Request) (name value : Str) : List HeaderField :=
  if r.headers.contains name then [] else [⟨name, value⟩]

/-- The fields a request has once it has been sent on with this body. -/
def settled (r : Request) (data : Option Str) : List HeaderField :=
  r.headers.headers.entries ++ added r Header.userAgent.name "Asio/RoutineHttp".toList ++
    match data with
    | none => []
    | some data => added r Header.contentLength.name (toDecimal data.length)

/-- No query mark in front, and something is left of the target when its path is normalised
and its empty parameters are gone. -/
def Endures (target : Str) : Prop := target.head? ≠ some '?' ∧
  (formatPath (targetPath target) ≠ [] ∨
    ∃ key value, (queryMap target).lookup key = some value)

/-- A request that has been read and can be sent on: its length, if it has one, is that of
its body in memory. -/
structure Relayable (r : Request) (data : Option Str) : Prop where
  fresh : ∃ target, Fresh target { r with body := none } ∧ Endures target
  body : r.body = data.map BodyStorage.memory
  plain : data = none → hasLength r.headers = false ∧ isChunked r.headers = false
  length : ∀ value, r.headers.headers.lookup Header.contentLength.name = some value →
    IsDecimal value (data.getD []).length
  fits : (data.getD []).length < sizeLimit

/-- The request a session hands over, its body in memory when it has a length. -/
def received (w : WireRequest) : Request :=
  { w.request with body := if hasLength w.request.headers then some (.memory w.body) else none }

/-- One server writes the request, the next one reads it. -/
def Hop (r r' : Request) : Prop :=
  ∃ queryOrder order sent w, r.prepareRequest queryOrder order = .ok sent ∧
    sent.1 = WireRequest.text w ∧ r' = received w

/-- The same request up to the spelling of its path and the fields added on the way. -/
structure SameMessage (r r' : Request) (data : Option Str) : Prop where
  method : r'.method = r.method
  path : formatPath r'.path = formatPath r.path
  query : ∀ key, r'.queryParams.params.lookup key = r.queryParams.params.lookup key
  headers : (settled r' data).Perm (settled r data)
  body : r'.body = r.body

theorem SameMessage.refl (r : Request) (data : Option Str) : SameMessage r r data :=
  ⟨rfl, rfl, fun _ => rfl, List.Perm.refl _, rfl⟩

theorem SameMessage.trans {a b c : Request} {data : Option Str} (hab : SameMessage a b data)
    (hbc : SameMessage b c data) : SameMessage a c data :=
  ⟨hbc.method.trans hab.method, hbc.path.trans hab.path,
    fun key => (hbc.query key).trans (hab.query key), hbc.headers.trans hab.headers,
    hbc.body.trans hab.body⟩

/-- The fields written after the parsed ones. -/
def writtenFields (r : Request) : Option Str → List HeaderField
  | none => if r.headers.contains Header.userAgent.name then [] else [agentField]
  | some data => addedFields r data

/-- The message written for a request, with or without a body. -/
theorem prepareRequest_message {r : Request} {data : Option Str}
    (hbody : r.body = data.map BodyStorage.memory) {found : Str × Parameters}
    (hf : r.pathText = .ok found) (queryOrder order : IterationOrder HeaderField) :
    r.prepareRequest queryOrder order = .ok (Message.write ⟨r.requestLine found.1 queryOrder,
      (order.order r.headers.headers.entries ++ writtenFields r data).map HeaderField.asString,
      data.getD []⟩, { r with pathParams := found.2 }) := by
  cases data with
  | some data => exact prepareRequest_eq hbody hf queryOrder order
  | none =>
    have htext : r.bodyText = .ok ([], []) := by rw [Request.bodyText, hbody]; rfl
    have hagent : agentField.asString ++ crlf = "User-Agent: Asio/RoutineHttp".toList ++ crlf := by
      decide
    have hadded : (writtenFields r none).flatMap (fun field => field.asString ++ crlf) =
        r.agentText := by
      rw [writtenFields, Request.agentText]
      split
      · rfl
      · rw [List.flatMap_singleton, hagent]
    rw [Request.prepareRequest, hf, htext, write_fields, List.flatMap_append, hadded]
    simp only [bind, Except.bind, pure, Except.pure, List.append_assoc, Option.getD_none,
      List.append_nil]

theorem mem_writtenFields {r : Request} {data : Option Str} {field : HeaderField}
    (h : field ∈ writtenFields r data) : field = agentField ∨ ∃ text, field = lengthField text := by
  have hagent : ∀ {fields : List HeaderField}, field ∈ (if r.headers.contains Header.userAgent.name
      then [] else [agentField]) → field = agentField := by
    intro _ hmem
    split at hmem
    · cases hmem
    · exact List.mem_singleton.mp hmem
  cases data with
  | none => exact Or.inl (@hagent [] h)
  | some data =>
    obtain h | h := List.mem_append.mp h
    · exact Or.inl (@hagent [] h)
    · exact Or.inr ⟨data, List.mem_singleton.mp h⟩

/-- The written fields stay within their lines, which the parser can take apart. -/
theorem writtenFields_line {r : Request} {data : Option Str} {field : HeaderField}
    (h : field ∈ writtenFields r data) : ('\n' ∉ field.1 ∧ '\n' ∉ field.2) ∧
      2 ≤ field.1.length ∧ ':' ∉ field.1.drop 2 ∧ (fieldLine field).head? ≠ some '\r' := by
  obtain rfl | ⟨text, rfl⟩ := mem_writtenFields h
  · decide
  · have hname : (lengthField text).1 = "Content-Length".toList := rfl
    have hhead : (fieldLine (lengthField text)).head? = "Content-Length".toList.head? := by
      rw [fieldLine, HeaderField.asString, hname, List.append_assoc, List.append_assoc]
      exact List.head?_append_of_ne_nil _ (by decide)
    rw [hhead, hname]
    exact ⟨⟨by decide, (lineText_toDecimal _).2⟩, by decide, by decide, by decide⟩

/-- A field whose name is stored in lower case. -/
def lowered (field : HeaderField) : HeaderField := ⟨field.1.map Char.toLower, field.2⟩

/-- Fields with names in any case are stored in lower case one after the other. -/
theorem parseLines_lowered {fields : List HeaderField}
    (hf : ∀ field ∈ fields, 2 ≤ field.1.length ∧ ':' ∉ field.1.drop 2 ∧
      (fieldLine field).head? ≠ some '\r') (h : Headers) :
    h.parseLines (fields.map fieldLine) = .ok (insertAll h (fields.map lowered)) := by
  induction fields generalizing h with
  | nil => rfl
  | cons field fields ih =>
    obtain ⟨hlen, hcolon, hhead⟩ := hf field (by simp)
    rw [List.map_cons, Headers.parseLines, if_neg hhead, parseLine_fieldLine hlen hcolon]
    exact ih (fun field' hm => hf field' (List.mem_cons_of_mem _ hm)) _

theorem insert_perm (h : Headers) (key value : Str) :
    (h.insert key value).headers.entries.Perm
      (h.headers.entries ++ if h.contains key then [] else [⟨key, value⟩]) := by
  by_cases hk : h.contains key = true
  · rw [Headers.insert_of_contains hk, if_pos hk, List.append_nil]
  · rw [if_neg hk]
    have hnew : key ∉ h.headers := fun hmem => hk (decide_eq_true hmem)
    rw [Headers.insert, emplace, if_neg hnew, AList.entries_insert_of_notMem hnew]
    exact (List.perm_append_singleton _ _).symm

theorem contains_of_perm {h h' : Headers} (hperm : h'.headers.entries.Perm h.headers.entries)
    (key : Str) : h'.contains key = h.contains key := by
  rw [Headers.contains, Headers.contains, decide_eq_decide, mem_iff_exists_entry,
    mem_iff_exists_entry]
  simp only [hperm.mem_iff]

theorem contains_insert_ne {key name : Str} (hne : key ≠ name) (h : Headers) (value : Str) :
    (h.insert name value).contains key = h.contains key := by
  have hmem : key ∈ (h.insert name value).headers ↔ key ∈ h.headers :=
    Headers.mem_insert.trans (or_iff_right hne)
  exact decide_eq_decide.mpr hmem

theorem insert_added {r : Request} {h : Headers}
    (hperm : h.headers.entries.Perm r.headers.headers.entries) (name value : Str) :
    (h.insert name value).headers.entries.Perm (r.headers.headers.entries ++ added r name value) := by
  have hinsert := insert_perm h name value
  rw [contains_of_perm hperm] at hinsert
  exact hinsert.trans (hperm.append_right _)

/-- What is stored from the written fields besides the parsed ones. -/
theorem insertAll_settled {r : Request} {h : Headers} (data : Option Str)
    (hperm : h.headers.entries.Perm r.headers.headers.entries) :
    (insertAll h ((writtenFields r data).map lowered)).headers.entries.Perm (settled r data) := by
  have hagent : lowered agentField = ⟨Header.userAgent.name, "Asio/RoutineHttp".toList⟩ := by decide
  have hlength : ∀ data, lowered (lengthField data) =
      ⟨Header.contentLength.name, toDecimal data.length⟩ := by
    intro data
    have hname : "Content-Length".toList.map Char.toLower = Header.contentLength.name := by decide
    exact congrArg (fun name => (⟨name, toDecimal data.length⟩ : HeaderField)) hname
  have hne : Header.contentLength.name ≠ Header.userAgent.name := by decide
  -- storing the agent leaves the question for the length as it was
  have hother : ∀ value, (h.insert Header.userAgent.name value).contains Header.contentLength.name =
      r.headers.contains Header.contentLength.name := by
    intro value
    rw [contains_insert_ne hne, contains_of_perm hperm]
  cases hcontains : r.headers.contains Header.userAgent.name with
  | true =>
    cases data with
    | none => simpa [writtenFields, settled, added, hcontains, insertAll] using hperm
    | some data =>
      have hadd := insert_added hperm Header.contentLength.name (toDecimal data.length)
      simpa [writtenFields, addedFields, settled, added, hcontains, insertAll, hlength] using hadd
  | false =>
    have hfirst := insert_added hperm Header.userAgent.name "Asio/RoutineHttp".toList
    cases data with
    | none => simpa [writtenFields, settled, added, hcontains, insertAll, hagent] using hfirst
    | some data =>
      have hsecond := insert_perm (h.insert Header.userAgent.name "Asio/RoutineHttp".toList)
        Header.contentLength.name (toDecimal data.length)
      rw [hother] at hsecond
      have hboth := hsecond.trans (hfirst.append_right _)
      simpa [writtenFields, addedFields, settled, added, hcontains, insertAll, hagent, hlength]
        using hboth

theorem mem_added {r : Request} {name value : Str} {field : HeaderField} :
    field ∈ added r name value ↔ r.headers.contains name = false ∧ field = ⟨name, value⟩ := by
  unfold added
  cases r.headers.contains name <;> simp

/-- What headers with the settled fields hold under a name. -/
theorem lookup_settled {r : Request} {data : Option Str} {h : Headers}
    (hperm : h.headers.entries.Perm (settled r data)) {name value : Str} :
    h.headers.lookup name = some value ↔ r.headers.headers.lookup name = some value ∨
      (⟨name, value⟩ : HeaderField) ∈ added r Header.userAgent.name "Asio/RoutineHttp".toList ∨
      ∃ text, data = some text ∧ (⟨name, value⟩ : HeaderField) ∈
        added r Header.contentLength.name (toDecimal text.length) := by
  have hentry : ∀ h : Headers, h.headers.lookup name = some value ↔
      (⟨name, value⟩ : HeaderField) ∈ h.headers.entries := fun h => AList.mem_lookup_iff
  rw [hentry h, hentry r.headers, hperm.mem_iff]
  unfold settled
  rw [List.mem_append, List.mem_append, or_assoc]
  refine or_congr_right (or_congr_right ?_)
  cases data <;> simp

/-- Under a name that is never added nothing changes. -/
theorem lookup_other {r : Request} {data : Option Str} {h : Headers}
    (hperm : h.headers.entries.Perm (settled r data)) {name : Str}
    (hagent : name ≠ Header.userAgent.name) (hlength : name ≠ Header.contentLength.name) :
    h.headers.lookup name = r.headers.headers.lookup name := by
  refine Option.ext fun value => (lookup_settled hperm).trans (or_iff_left ?_)
  rintro (hadded | ⟨text, -, hadded⟩)
  · exact hagent (Sigma.mk.inj (mem_added.mp hadded).2).1
  · exact hlength (Sigma.mk.inj (mem_added.mp hadded).2).1

theorem contains_eq (h : Headers) (name : Str) :
    h.contains name = (h.headers.lookup name).isSome := by
  rw [Headers.contains, Bool.eq_iff_iff, decide_eq_true_iff, mem_iff_exists_lookup,
    Option.isSome_iff_exists]

theorem holds_congr {h h' : Headers} {name : Str}
    (heq : h'.headers.lookup name = h.headers.lookup name) (value : Str) :
    holds h' name value = holds h name value := by
  rw [holds, holds, contains_eq, contains_eq, Headers.get, Headers.get, heq]

namespace Relayable
variable {r : Request} {data : Option Str} {h : Headers}

/-- A length among the settled fields is that of the body there is. -/
theorem length_settled (hr : Relayable r data)
    (hperm : h.headers.entries.Perm (settled r data)) {value : Str}
    (hl : h.headers.lookup Header.contentLength.name = some value) :
    IsDecimal value (data.getD []).length ∧ data.isSome = true := by
  obtain hold | hadded | ⟨text, rfl, hadded⟩ := (lookup_settled hperm).mp hl
  · refine ⟨hr.length value hold, ?_⟩
    cases hd : data with
    | some text => rfl
    | none =>
      have hno := (hr.plain hd).1
      rw [hasLength, contains_eq, hold] at hno
      cases hno
  · have hname := (Sigma.mk.inj (mem_added.mp hadded).2).1
    exact absurd hname (by decide)
  · obtain ⟨-, heq⟩ := mem_added.mp hadded
    cases heq
    exact ⟨isDecimal_toDecimal text.length, rfl⟩

/-- Without a length among them there is no body. -/
theorem none_of_no_length (hperm : h.headers.entries.Perm (settled r data))
    (hl : h.headers.lookup Header.contentLength.name = none) : data = none := by
  cases hd : data with
  | none => rfl
  | some text =>
    exfalso
    cases hc : r.headers.contains Header.contentLength.name with
    | true =>
      rw [contains_eq] at hc
      obtain ⟨value, hvalue⟩ := Option.isSome_iff_exists.mp hc
      have hstored := (lookup_settled hperm).mpr (Or.inl hvalue)
      rw [hl] at hstored
      cases hstored
    | false =>
      have hstored := (lookup_settled hperm).mpr
        (Or.inr (Or.inr ⟨text, hd, mem_added.mpr ⟨hc, rfl⟩⟩))
      rw [hl] at hstored
      cases hstored

theorem hasLength_eq (hr : Relayable r data) (hperm : h.headers.entries.Perm (settled r data)) :
    hasLength h = data.isSome := by
  rw [hasLength, contains_eq]
  cases hl : h.headers.lookup Header.contentLength.name with
  | some value => rw [(hr.length_settled hperm hl).2]; rfl
  | none => rw [none_of_no_length hperm hl]

/-- Nor are the settled headers those of a chunked message. -/
theorem not_chunked (hr : Relayable r data) (hperm : h.headers.entries.Perm (settled r data))
    (hdata : data = none) : isChunked h = false := by
  subst hdata
  obtain ⟨hno, hchunked⟩ := hr.plain rfl
  have hcoding : h.headers.lookup Header.transferEncoding.name =
      r.headers.headers.lookup Header.transferEncoding.name :=
    lookup_other hperm (by decide) (by decide)
  have hsame := hr.hasLength_eq hperm
  rw [isChunked, hno] at hchunked
  rw [isChunked, hsame, holds_congr hcoding]
  exact hchunked

end Relayable

/-- What is behind the method of the written request. -/
def sentTarget (r : Request) (found : Str) (queryOrder : IterationOrder HeaderField) : Str :=
  '/' :: (found ++ sentQuery r queryOrder)

section
variable {r : Request} {target : Str} {found : Str × Parameters}

/-- No blank and no line feed gets into the target that is sent. -/
theorem sentTarget_notMem (h : Fresh target { r with body := none }) (hf : r.pathText = .ok found)
    (queryOrder : IterationOrder HeaderField) :
    ' ' ∉ sentTarget r found.1 queryOrder ∧ '\n' ∉ sentTarget r found.1 queryOrder := by
  have hpath := (h.written hf).2
  have hsent : ∀ c, c ∉ target → c ≠ '/' → c ≠ '?' ∧ c ≠ '&' ∧ c ≠ '=' →
      c ∉ sentTarget r found.1 queryOrder := by
    intro c hc hslash hne
    have hparams : ∀ e ∈ r.queryParams.params.entries, c ∉ e.1 ∧ c ∉ e.2 := by
      have hquery := h.query
      dsimp only at hquery
      rw [hquery]
      exact parseQueryParameters_notMem hc
    have hquery := sentQuery_notMem hparams hne queryOrder
    simp [sentTarget, hslash, hpath c (notMem_targetPath hc hslash) hslash, hquery]
  exact ⟨hsent ' ' h.space (by decide) (by decide), hsent '\n' h.line (by decide) (by decide)⟩

theorem mark_notMem_found (h : Fresh target { r with body := none }) (hsend : Endures target)
    (hf : r.pathText = .ok found) : '?' ∉ found.1 := by
  refine (h.written hf).2 '?' ?_ (by decide)
  obtain hnone | ⟨before, query, rfl, hne, hnone⟩ | ⟨query, rfl⟩ := target_cases target
  · exact notMem_targetPath hnone (by decide)
  · rwa [targetPath_query hne hnone]
  · exact absurd rfl hsend.1

/-- The query that is sent has the parameters again, where they can be told apart. -/
theorem lookup_sentQuery {path : Str} (hpath : '?' ∉ path) {r : Request}
    (hparams : ∀ field ∈ r.queryParams.params.entries,
      '=' ∉ field.1 ∧ '&' ∉ parameterText field)
    (queryOrder : IterationOrder HeaderField) (key : Str) :
    (queryMap (path ++ sentQuery r queryOrder)).lookup key = r.queryParams.params.lookup key := by
  have hperm := queryOrder.perm r.queryParams.params.entries
  unfold sentQuery
  split
  · have hfields : ∀ field ∈ queryOrder.order r.queryParams.params.entries,
        '=' ∉ field.1 ∧ '&' ∉ parameterText field :=
      fun field hfield => hparams field (hperm.mem_iff.mp hfield)
    have hpieces : ((queryOrder.order r.queryParams.params.entries).map parameterText).map
        splitParameter = (queryOrder.order r.queryParams.params.entries).map
          fun field => (field.1, field.2) := by
      rw [List.map_map]
      refine List.map_congr_left fun field hfield => ?_
      exact splitParameter_parameterText (hfields field hfield).1
    rw [queryMap_append hpath, splitString_queryText fun field hfield => (hfields field hfield).2,
      hpieces, lookup_emplaceAll_perm hperm]
  · next hempty =>
    have hnil : r.queryParams.params.entries = [] := by
      rw [← List.length_eq_zero_iff]
      simpa [Parameters.size] using hempty
    rw [List.append_nil, queryMap_of_notMem hpath, AList.lookup, AList.lookup, hnil]
    rfl

/-- The path and the query are found again in the target that is sent. -/
theorem sentTarget_read (h : Fresh target { r with body := none }) (hsend : Endures target)
    (hf : r.pathText = .ok found) (queryOrder : IterationOrder HeaderField) :
    formatPath (targetPath (sentTarget r found.1 queryOrder)) = formatPath r.path ∧
      ∀ key, (queryMap (sentTarget r found.1 queryOrder)).lookup key =
        r.queryParams.params.lookup key := by
  have hmark := mark_notMem_found h hsend hf
  have hpath : r.path = targetPath target := h.path
  have hquery : r.queryParams = ⟨queryMap target⟩ := h.query
  refine ⟨?_, fun key => ?_⟩
  · rw [sentTarget, formatPath_targetPath hmark (sentQuery_cases r queryOrder), (h.written hf).1,
      hpath]
  · have hslash : '?' ∉ '/' :: found.1 := by simpa using hmark
    rw [sentTarget, ← List.cons_append]
    exact lookup_sentQuery hslash (by rw [hquery]; exact fun _ => stored_separable) queryOrder key

/-- What is left of a target is left of the one that is sent. -/
theorem endures_sentTarget (h : Fresh target { r with body := none }) (hsend : Endures target)
    (hf : r.pathText = .ok found) (queryOrder : IterationOrder HeaderField) :
    Endures (sentTarget r found.1 queryOrder) := by
  obtain ⟨hpath, hquery⟩ := sentTarget_read h hsend hf queryOrder
  have hold : r.path = targetPath target := h.path
  have hparams : r.queryParams = ⟨queryMap target⟩ := h.query
  refine ⟨by simp [sentTarget], ?_⟩
  obtain hne | ⟨key, value, hvalue⟩ := hsend.2
  · left
    rwa [hpath, hold]
  · right
    exact ⟨key, value, by rw [hquery, hparams, hvalue]⟩

/-- A target that endures has a path that can be written. -/
theorem exists_pathText (h : Fresh target { r with body := none }) (hsend : Endures target) :
    ∃ found, r.pathText = .ok found := by
  refine h.pathText_ok_iff.mpr ?_
  obtain hne | ⟨key, value, hvalue⟩ := hsend.2
  · by_contra hall
    have hslashes : ∀ c ∈ targetPath target, c = '/' := fun c hc => by
      by_contra hslash
      exact notMem_targetPath (fun hmem => hall ⟨c, hmem, hslash⟩) hslash hc
    exact hne ((formatPath_eq_nil_iff _).mpr hslashes)
  · have hmark : '?' ∈ target := by
      by_contra hnone
      rw [queryMap_of_notMem hnone] at hvalue
      cases hvalue
    exact ⟨'?', hmark, by decide⟩

end

/-- Headers with the settled fields have all that is ever added. -/
theorem settled_eq {r r' : Request} {data : Option Str}
    (hperm : r'.headers.headers.entries.Perm (settled r data)) :
    settled r' data = r'.headers.headers.entries := by
  have hpresent : ∀ name value, (∀ other, r.headers.headers.lookup name = some other →
      r'.headers.headers.lookup name = some other) →
      (r.headers.contains name = false → r'.headers.headers.lookup name = some value) →
      added r' name value = [] := by
    intro name value hold hnew
    rw [added, if_pos]
    rw [contains_eq, Option.isSome_iff_exists]
    cases hc : r.headers.contains name with
    | false => exact ⟨value, hnew hc⟩
    | true =>
      rw [contains_eq] at hc
      obtain ⟨other, hother⟩ := Option.isSome_iff_exists.mp hc
      exact ⟨other, hold other hother⟩
  have hkeep : ∀ name other, r.headers.headers.lookup name = some other →
      r'.headers.headers.lookup name = some other :=
    fun name other h => (lookup_settled hperm).mpr (Or.inl h)
  have hagent := hpresent Header.userAgent.name "Asio/RoutineHttp".toList (hkeep _)
    fun hno => (lookup_settled hperm).mpr (Or.inr (Or.inl (mem_added.mpr ⟨hno, rfl⟩)))
  cases data with
  | none => simp only [settled, hagent, List.append_nil]
  | some text =>
    have hlength := hpresent Header.contentLength.name (toDecimal text.length) (hkeep _) fun hno =>
      (lookup_settled hperm).mpr (Or.inr (Or.inr ⟨text, rfl, mem_added.mpr ⟨hno, rfl⟩⟩))
    simp only [settled, hagent, hlength, List.append_nil]

/-- The written head is read as the request it was written for. -/
theorem ofRaw_sent {r : Request} {data : Option Str} {path : Str}
    (hparsed : ∃ stream, Headers.initFromStream {} stream = .ok r.headers)
    {queryOrder : IterationOrder HeaderField} (hspace : ' ' ∉ sentTarget r path queryOrder)
    (hline : '\n' ∉ sentTarget r path queryOrder) (order : IterationOrder HeaderField) :
    ∃ headers : Headers, headers.headers.entries.Perm (settled r data) ∧
      (∃ stream, Headers.initFromStream {} stream = .ok headers) ∧
      Request.ofRaw (rawRequest r.method.name (sentTarget r path queryOrder) "HTTP/1.1".toList
        (fieldsText (order.order r.headers.headers.entries ++ writtenFields r data))) =
        .ok { method := r.method, path := targetPath (sentTarget r path queryOrder),
              version := versionFromString ("HTTP/1.1".toList ++ ['\r']), headers,
              queryParams := ⟨queryMap (sentTarget r path queryOrder)⟩ } := by
  obtain ⟨stream, hstream⟩ := hparsed
  obtain ⟨parsed, hperm, hread⟩ := initFromStream_fieldsText hstream (order.perm _)
    (fieldsText (writtenFields r data))
  have hlines := getlines_fieldsText (fun field hm => (@writtenFields_line r data field hm).1) []
  have hparse := parseLines_lowered (fun field hm => (@writtenFields_line r data field hm).2) parsed
  rw [List.append_nil] at hlines
  have hblock : Headers.initFromStream {} (fieldsText (order.order r.headers.headers.entries ++
      writtenFields r data)) = .ok (insertAll parsed ((writtenFields r data).map lowered)) := by
    have hnil : getlines [] '\n' = [] := rfl
    rw [fieldsText, List.flatMap_append, ← fieldsText, ← fieldsText, hread, hlines, hnil,
      List.append_nil]
    exact hparse
  have hmethod : ' ' ∉ r.method.name ∧ r.method.name ≠ [] ∧ '\n' ∉ r.method.name := by
    cases r.method <;> decide
  have hversion : ' ' ∉ "HTTP/1.1".toList ∧ '\n' ∉ "HTTP/1.1".toList := by decide
  have hagain := ofRaw_rawRequest hmethod.1 hmethod.2.1 hspace (List.cons_ne_nil _ _) hversion.1
    ⟨hmethod.2.2, hline, hversion.2⟩ (fieldsText (order.order r.headers.headers.entries ++
      writtenFields r data))
  rw [hblock, methodFromString_name] at hagain
  exact ⟨_, insertAll_settled data hperm, ⟨_, hblock⟩, hagain⟩

theorem requestLine_eq (r : Request) (path : Str) (queryOrder : IterationOrder HeaderField) :
    r.requestLine path queryOrder =
      r.method.name ++ ' ' :: (sentTarget r path queryOrder ++ ' ' :: "HTTP/1.1".toList) := by
  have hslash : " /".toList = [' ', '/'] := by decide
  have hversion : " HTTP/1.1".toList = ' ' :: "HTTP/1.1".toList := by decide
  simp only [Request.requestLine, sentTarget, sentQuery, hslash, hversion, List.append_assoc,
    List.cons_append, List.nil_append]

/-- The end of the written head is where the body begins, and in front of it is a raw request. -/
theorem cut_sent {r : Request} {data : Option Str} {path : Str}
    (hparsed : ∃ stream, Headers.initFromStream {} stream = .ok r.headers)
    {queryOrder : IterationOrder HeaderField} (hline : '\n' ∉ sentTarget r path queryOrder)
    (order : IterationOrder HeaderField) :
    ∃ front, (front ++ headEnd).dropInfix? headEnd = some (front, []) ∧
      front ++ crlf = rawRequest r.method.name (sentTarget r path queryOrder) "HTTP/1.1".toList
        (fieldsText (order.order r.headers.headers.entries ++ writtenFields r data)) ∧
      ∀ body, Message.write ⟨r.requestLine path queryOrder,
        (order.order r.headers.headers.entries ++ writtenFields r data).map HeaderField.asString,
        body⟩ = front ++ headEnd ++ body := by
  obtain ⟨stream, hstream⟩ := hparsed
  have hfields : ∀ line ∈ (order.order r.headers.headers.entries ++ writtenFields r data).map
      HeaderField.asString, '\n' ∉ line ∧ line ≠ [] := by
    intro line hline
    obtain ⟨field, hfield, rfl⟩ := List.mem_map.mp hline
    obtain hfield | hfield := List.mem_append.mp hfield
    · have hrewrites := initFromStream_rewritable hstream field ((order.perm _).mem_iff.mp hfield)
      exact HeaderField.asString_line hrewrites.nameLine hrewrites.valueLine
    · have hadded := (writtenFields_line hfield).1
      exact HeaderField.asString_line hadded.1 hadded.2
  have hstart : '\n' ∉ r.requestLine path queryOrder := by
    have hmethod : '\n' ∉ r.method.name := by cases r.method <;> decide
    rw [requestLine_eq]
    simp [hmethod, hline]
  obtain ⟨front, hcut, hfront⟩ := Message.cut_writeHead ⟨r.requestLine path queryOrder,
    (order.order r.headers.headers.entries ++ writtenFields r data).map HeaderField.asString, []⟩
    hstart hfields
  refine ⟨front, ?_, ?_, fun body => ?_⟩
  · rw [hfront]
    rwa [Message.write, List.append_nil] at hcut
  · have hend : headEnd = crlf ++ crlf := rfl
    rw [Message.writeHead, List.flatMap_map, hend, ← List.append_assoc] at hfront
    rw [List.append_cancel_right hfront, requestLine_eq, fieldsText, rawRequest]
    simp only [crlf, List.append_assoc, List.cons_append]
  · rw [hfront]
    rfl

/-- Whatever query takes the place of its own, what is written for a request that can be sent
on is a well-formed request, its query the one that is read in the target. -/
theorem writes_query {r : Request} {data : Option Str} (hr : Relayable r data)
    {found : Str × Parameters} (hf : r.pathText = .ok found) (params : Parameters)
    {queryOrder : IterationOrder HeaderField} {target : Str}
    (htarget : sentTarget { r with queryParams := params } found.1 queryOrder = target)
    (hspace : ' ' ∉ target) (hline : '\n' ∉ target) (order : IterationOrder HeaderField) :
    ∃ w : WireRequest, Request.prepareRequest { r with queryParams := params } queryOrder order =
        .ok (w.text, { r with queryParams := params, pathParams := found.2 }) ∧
      w.request.headers.headers.entries.Perm (settled r data) ∧
      (∃ stream, Headers.initFromStream {} stream = .ok w.request.headers) ∧
      received w = { method := r.method, path := targetPath target,
                     version := versionFromString ("HTTP/1.1".toList ++ ['\r']),
                     headers := w.request.headers, queryParams := ⟨queryMap target⟩,
                     body := r.body } := by
  subst htarget
  obtain ⟨_, hfresh, -⟩ := hr.fresh
  obtain ⟨front, hfirst, hraw, hwrite⟩ := @cut_sent { r with queryParams := params } data found.1
    hfresh.headers queryOrder hline order
  obtain ⟨headers, hperm, hstream, hparsed⟩ := @ofRaw_sent { r with queryParams := params } data
    found.1 hfresh.headers queryOrder hspace hline order
  have hlength := hr.hasLength_eq hperm
  rw [← hraw] at hparsed
  let w : WireRequest := ⟨front, data.getD [], _, hfirst, hparsed, by
    split
    · next value hl => exact ⟨(hr.length_settled hperm hl).1, hr.fits⟩
    · next hl =>
      have hnone := Relayable.none_of_no_length hperm hl
      exact ⟨by rw [hnone]; rfl, hr.not_chunked hperm hnone⟩⟩
  have hbody : (received w).body = r.body := by
    change (if hasLength headers then some (BodyStorage.memory (data.getD [])) else none) = _
    rw [hlength, hr.body]
    cases data <;> rfl
  have hwritten := prepareRequest_message (r := { r with queryParams := params }) hr.body hf
    queryOrder order
  refine ⟨w, hwritten.trans ?_, hperm, hstream, ?_⟩
  · rw [hwrite]
    rfl
  · rw [← hbody]
    rfl

/-- What is written for a request is a well-formed request, and again one that can be sent
on; it is the same up to its spelling and the added fields. -/
theorem writes_wire {r : Request} {data : Option Str} (hr : Relayable r data)
    (queryOrder order : IterationOrder HeaderField) :
    ∃ sent w, r.prepareRequest queryOrder order = .ok sent ∧ sent.1 = WireRequest.text w ∧
      Relayable (received w) data ∧ SameMessage r (received w) data := by
  obtain ⟨target, hfresh, hendures⟩ := hr.fresh
  obtain ⟨found, hf⟩ := exists_pathText hfresh hendures
  obtain ⟨hpath, hquery⟩ := sentTarget_read hfresh hendures hf queryOrder
  obtain ⟨hspace, hline⟩ := sentTarget_notMem hfresh hf queryOrder
  obtain ⟨w, hsent, hperm, hstream, hreceived⟩ :=
    writes_query hr hf r.queryParams rfl hspace hline order
  refine ⟨_, w, hsent, rfl, ?_⟩
  have hheaders : (received w).headers = w.request.headers := rfl
  refine ⟨⟨⟨_, ?_, endures_sentTarget hfresh hendures hf queryOrder⟩, ?_, ?_, ?_, hr.fits⟩, ?_⟩
  · rw [hreceived]
    exact ⟨rfl, rfl, rfl, rfl, hspace, hline, hstream⟩
  · rw [hreceived]
    exact hr.body
  · intro hdata
    rw [hheaders, hr.hasLength_eq hperm, hdata]
    exact ⟨rfl, hr.not_chunked hperm hdata⟩
  · intro value hvalue
    exact (hr.length_settled hperm hvalue).1
  · have hsettled : settled (received w) data = (received w).headers.headers.entries := settled_eq hperm
    rw [hreceived] at hsettled ⊢
    exact ⟨rfl, hpath, hquery, hsettled ▸ hperm, rfl⟩

/-- A text holds one request only. -/
theorem received_eq {w w' : WireRequest} (h : w.text = w'.text) : received w = received w' := by
  have hcut : ∀ w : WireRequest, w.text.dropInfix? headEnd = some (w.front, w.body) :=
    fun w => dropInfix?_append_pattern w.first w.body
  have hsame := hcut w
  rw [h, hcut w', Option.some.injEq, Prod.mk.injEq] at hsame
  obtain ⟨hfront, hbody⟩ := hsame
  have hparsed := w.parsed
  rw [← hfront, w'.parsed] at hparsed
  rw [received, received, hbody, Except.ok.inj hparsed]

/-- One hop keeps the request and that it can be sent on. -/
theorem hop_step {r r' : Request} {data : Option Str} (hr : Relayable r data) (hop : Hop r r') :
    Relayable r' data ∧ SameMessage r r' data := by
  obtain ⟨queryOrder, order, sent, w, hsent, htext, rfl⟩ := hop
  obtain ⟨sent', w', hsent', htext', hrelayable, hsame⟩ := writes_wire hr queryOrder order
  cases hsent.symm.trans hsent'
  rw [received_eq (htext.symm.trans htext')]
  exact ⟨hrelayable, hsame⟩

/-- A request the constructor has read can be sent on with a body of its length. -/
theorem relayable_of_ofRaw {rawHttp target : Str} {r : Request} {data : Option Str}
    (h : Request.ofRaw rawHttp = .ok r) (ht : targetOf rawHttp = some target)
    (hendures : Endures target)
    (hplain : data = none → hasLength r.headers = false ∧ isChunked r.headers = false)
    (hlength : ∀ value, r.headers.headers.lookup Header.contentLength.name = some value →
      IsDecimal value (data.getD []).length)
    (hfits : (data.getD []).length < sizeLimit) :
    Relayable { r with body := data.map BodyStorage.memory } data := by
  obtain ⟨target', ht', hfresh⟩ := fresh_ofRaw h
  obtain rfl := Option.some.inj (ht.symm.trans ht')
  exact ⟨⟨target, ⟨hfresh.path, hfresh.query, hfresh.pathParams, rfl, hfresh.space, hfresh.line,
    hfresh.headers⟩, hendures⟩, rfl, hplain, hlength, hfits⟩

def posted : Request :=
  { method := .post, path := "a".toList, version := .http11,
    headers := Headers.insert {} "host".toList "b".toList }

theorem relayable_posted :
    Relayable { posted with body := some (.memory "hello".toList) } (some "hello".toList) := by
  have hread : Request.ofRaw "POST /a HTTP/1.1\r\nHost: b\r\n".toList = .ok posted := rfl
  have htarget : targetOf "POST /a HTTP/1.1\r\nHost: b\r\n".toList = some "/a".toList := rfl
  have hendures : Endures "/a".toList := ⟨by decide, Or.inl (by decide)⟩
  have hnone : posted.headers.headers.lookup Header.contentLength.name = none := rfl
  refine @relayable_of_ofRaw _ _ _ (some "hello".toList) hread htarget hendures nofun
    (fun value h => ?_) (by decide)
  rw [hnone] at h
  cases h

end RoutineHttp.RequestRelay
