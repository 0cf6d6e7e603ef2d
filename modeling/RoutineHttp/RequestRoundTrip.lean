import RoutineHttp.HeaderRoundTrip
import RoutineHttp.QueryRouting
import RoutineHttp.RequestFraming

/-! Writing a received request and parsing it again. The writer looks at the end of the
path; the parser keeps a path with a query in its spelling, a query mark in front aside. -/
namespace RoutineHttp.RequestRoundTrip
open Lib HeaderRoundTrip QueryRouting RequestFraming

/-- The second token of the request line. -/
def targetOf (rawHttp : Str) : Option Str :=
  (splitStringLimit ((getline rawHttp '\n').getD ([], [])).1 ' ' 3)[1]?

/-- The path the constructor stores for a target. -/
def targetPath (target : Str) : Str :=
  if (parseQueryParameters {} target).1 = 0 then formatPath target
  else target.take (parseQueryParameters {} target).1

/-- The field the writer adds, as the parser stores it. -/
def defaultAgent (r : Request) : List HeaderField :=
  if r.headers.contains Header.userAgent.name then []
  else [⟨Header.userAgent.name, "Asio/RoutineHttp".toList⟩]

/-- The request can be written, and what is parsed from the text has its method, its
normalised path, and its headers with the default agent where it had none. -/
def RoundTrips (r : Request) (queryOrder order : IterationOrder HeaderField) : Prop :=
  ∃ text r', r.prepareRequest queryOrder order = .ok (text, r') ∧
    ∃ again, Request.ofRaw text = .ok again ∧ again.method = r.method ∧
      formatPath again.path = formatPath r.path ∧
      again.headers.headers.entries.Perm (r.headers.headers.entries ++ defaultAgent r)

/-- There is more than slashes in the target and no query mark in front. -/
def Sendable (target : Str) : Prop := target.head? ≠ some '?' ∧ ∃ c ∈ target, c ≠ '/'

theorem targetPath_of_notMem {target : Str} (h : '?' ∉ target) :
    targetPath target = formatPath target := by
  simp only [targetPath, parseQueryParameters, find_eq_none h, if_true]

theorem targetPath_query {path : Str} (hpath : path ≠ []) (hmark : '?' ∉ path) (query : Str) :
    targetPath (path ++ '?' :: query) = path := by
  have hlen : path.length ≠ 0 := by simpa using hpath
  simp only [targetPath, parseQueryParameters, find_append hmark, if_neg hlen, List.take_left]

/-- Ways for a target to look: no query, a query behind a path, a query mark in front. -/
theorem target_cases (target : Str) : '?' ∉ target ∨
    (∃ path query, target = path ++ '?' :: query ∧ path ≠ [] ∧ '?' ∉ path) ∨
      ∃ query, target = '?' :: query := by
  by_cases h : '?' ∈ target
  · obtain ⟨path, query, rfl, hmark⟩ := List.eq_append_cons_of_mem h
    cases path with
    | nil => exact Or.inr (Or.inr ⟨query, rfl⟩)
    | cons c path => exact Or.inr (Or.inl ⟨c :: path, query, rfl, List.cons_ne_nil c path, hmark⟩)
  · exact Or.inl h

theorem targetPath_mark (query : Str) : targetPath ('?' :: query) = formatPath ('?' :: query) := by
  have hfind : find ('?' :: query) '?' 0 = some 0 := find_append (s := []) (by simp) query
  simp only [targetPath, parseQueryParameters, hfind, if_true]

theorem notMem_targetPath {target : Str} {c : Char} (h : c ∉ target) (hc : c ≠ '/') :
    c ∉ targetPath target := by
  unfold targetPath
  split
  · exact fun hm => h (mem_of_mem_formatPath hm hc)
  · exact fun hm => h (List.mem_of_mem_take hm)

/-- Behind a slash no query mark gets into the path. -/
theorem mark_notMem_targetPath (target : Str) : '?' ∉ targetPath ('/' :: target) := by
  obtain h | ⟨path, query, heq, hpath, hmark⟩ | ⟨query, heq⟩ := target_cases ('/' :: target)
  · exact notMem_targetPath h (by decide)
  · rw [heq, targetPath_query hpath hmark]
    exact hmark
  · exact absurd (List.cons.inj heq).1 (by decide)

/-- The path is found again behind a slash, with or without a query. -/
theorem formatPath_targetPath {path query : Str} (hmark : '?' ∉ path)
    (hquery : query = [] ∨ ∃ rest, query = '?' :: rest) :
    formatPath (targetPath ('/' :: (path ++ query))) = formatPath path := by
  have hslash : '?' ∉ '/' :: path := by simpa using hmark
  obtain rfl | ⟨rest, rfl⟩ := hquery
  · rw [List.append_nil, targetPath_of_notMem hslash, formatPath_idem, formatPath_cons_slash]
  · rw [← List.cons_append, targetPath_query (List.cons_ne_nil _ _) hslash, formatPath_cons_slash]

/-- A request line of three tokens and a header block are taken apart as they were put
together. -/
theorem ofRaw_rawRequest {method target version : Str} (hm : ' ' ∉ method) (hmne : method ≠ [])
    (ht : ' ' ∉ target) (htne : target ≠ []) (hv : ' ' ∉ version)
    (hline : '\n' ∉ method ∧ '\n' ∉ target ∧ '\n' ∉ version) (headerBlock : Str) :
    Request.ofRaw (rawRequest method target version headerBlock) =
      (Headers.initFromStream {} headerBlock).map fun headers =>
        { method := methodFromString method, path := targetPath target,
          version := versionFromString (version ++ ['\r']), headers,
          queryParams := (parseQueryParameters {} target).2 } := by
  have htext : rawRequest method target version headerBlock =
      (method ++ ' ' :: (target ++ ' ' :: (version ++ ['\r']))) ++ '\n' :: headerBlock := by
    simp [rawRequest, crlf, lineEnd]
  have hfeed : '\n' ∉ method ++ ' ' :: (target ++ ' ' :: (version ++ ['\r'])) := by
    simp [hline]
  have hlast : records ' ' (version ++ ['\r']) = [version ++ ['\r']] :=
    records_of_not_mem (by simp [hv]) (by simp)
  have hparts : splitStringLimit (method ++ ' ' :: (target ++ ' ' :: (version ++ ['\r']))) ' ' 3 =
      [method, target, version ++ ['\r']] := by
    rw [splitStringLimit_line hm ht htne, if_neg hmne, hlast]
    simp
  rw [htext, Request.ofRaw, getline, readUntil_append hfeed]
  simp only [Option.getD_some, hparts, part, List.getElem?_cons_zero, List.getElem?_cons_succ, bind,
    Except.bind]
  cases Headers.initFromStream {} headerBlock <;> rfl

/-- What is written behind the path. -/
def sentQuery (r : Request) (queryOrder : IterationOrder HeaderField) : Str :=
  if r.queryParams.size > 0 then
    '?' :: Request.queryText (queryOrder.order r.queryParams.params.entries) else []

theorem prepareRequest_text {r : Request} (hbody : r.body = none) {found : Str × Parameters}
    (hf : r.pathText = .ok found) (queryOrder order : IterationOrder HeaderField) :
    r.prepareRequest queryOrder order = .ok (rawRequest r.method.name
      ('/' :: (found.1 ++ sentQuery r queryOrder)) "HTTP/1.1".toList
      (fieldsText (order.order r.headers.headers.entries) ++ (r.agentText ++ crlf)),
        { r with pathParams := found.2 }) := by
  have htext : r.bodyText = .ok ([], []) := by rw [Request.bodyText, hbody]
  have hslash : " /".toList = [' ', '/'] := by decide
  have hversion : " HTTP/1.1".toList = ' ' :: "HTTP/1.1".toList := by decide
  rw [Request.prepareRequest, hf, htext]
  simp only [bind, Except.bind, pure, Except.pure, Request.requestLine, rawRequest, sentQuery,
    fieldsText, hslash, hversion, List.append_assoc, List.cons_append, List.nil_append,
    List.append_nil]

theorem sentQuery_cases (r : Request) (queryOrder : IterationOrder HeaderField) :
    sentQuery r queryOrder = [] ∨ ∃ rest, sentQuery r queryOrder = '?' :: rest := by
  unfold sentQuery
  split
  · exact Or.inr ⟨_, rfl⟩
  · exact Or.inl rfl

theorem sentQuery_notMem {r : Request} {c : Char}
    (hq : ∀ e ∈ r.queryParams.params.entries, c ∉ e.1 ∧ c ∉ e.2)
    (hc : c ≠ '?' ∧ c ≠ '&' ∧ c ≠ '=') (queryOrder : IterationOrder HeaderField) :
    c ∉ sentQuery r queryOrder := by
  have htext : c ∉ Request.queryText (queryOrder.order r.queryParams.params.entries) := by
    intro hmem
    obtain hmem | ⟨token, ht, hmem⟩ := mem_intercalate hmem
    · exact hc.2.1 hmem
    · obtain ⟨field, hfield, rfl⟩ := List.mem_map.mp ht
      obtain ⟨hk, hv⟩ := hq field ((queryOrder.perm _).mem_iff.mp hfield)
      simp [hk, hv, hc.2.2] at hmem
  unfold sentQuery
  split
  · simpa [hc.1] using htext
  · exact List.not_mem_nil

/-- The end of the written header block: the agent line, where there is none, and the
empty line. -/
theorem parseLines_agent {r : Request} {h : Headers}
    (hperm : h.headers.entries.Perm r.headers.headers.entries) :
    ∃ h' : Headers, h.parseLines (getlines (r.agentText ++ crlf) '\n') = .ok h' ∧
      h'.headers.entries.Perm (r.headers.headers.entries ++ defaultAgent r) := by
  have hend : ∀ h : Headers, h.parseLines [['\r']] = .ok h := fun h => rfl
  unfold Request.agentText defaultAgent
  split
  · exact ⟨h, hend h, by rwa [List.append_nil]⟩
  · next hnone =>
    have hkey : Header.userAgent.name ∉ h.headers := by
      intro hmem
      obtain ⟨value, he⟩ := mem_iff_exists_entry.mp hmem
      exact hnone (decide_eq_true (mem_iff_exists_entry.mpr ⟨value, hperm.mem_iff.mp he⟩))
    have hlines : getlines ("User-Agent: Asio/RoutineHttp".toList ++ crlf ++ crlf) '\n' =
        [fieldLine agentField, ['\r']] := rfl
    have hname : agentField.1.map Char.toLower = Header.userAgent.name := by decide
    have hhead : (fieldLine agentField).head? ≠ some '\r' := by decide
    refine ⟨h.insert Header.userAgent.name "Asio/RoutineHttp".toList, ?_, ?_⟩
    · rw [hlines, Headers.parseLines, if_neg hhead,
        parseLine_fieldLine (by decide) (by decide), hname]
      exact hend _
    · rw [Headers.insert, emplace, if_neg hkey, AList.entries_insert_of_notMem hkey]
      exact (hperm.cons _).trans (List.perm_append_singleton _ _).symm

theorem methodFromString_name (m : Method) : methodFromString m.name = m := by
  cases m <;> rfl

/-- A request as the constructor leaves it, for a target without blanks. -/
structure Fresh (target : Str) (r : Request) : Prop where
  path : r.path = targetPath target
  query : r.queryParams = (parseQueryParameters {} target).2
  pathParams : r.pathParams = {}
  body : r.body = none
  space : ' ' ∉ target
  line : '\n' ∉ target
  headers : ∃ stream, Headers.initFromStream {} stream = .ok r.headers

theorem fresh_ofRaw {rawHttp : Str} {r : Request} (h : Request.ofRaw rawHttp = .ok r) :
    ∃ target, targetOf rawHttp = some target ∧ Fresh target r := by
  obtain ⟨method, target, version, headers, -, htarget, -, hheaders, rfl⟩ := Request.ofRaw_ok h
  have hmem : target ∈ splitStringLimit ((getline rawHttp '\n').getD ([], [])).1 ' ' 3 :=
    List.mem_of_getElem? htarget
  have hspace : ' ' ∉ target :=
    not_mem_of_mem_records (List.mem_of_mem_take (List.mem_of_mem_filter hmem))
  exact ⟨target, htarget, rfl, rfl, rfl, rfl, hspace,
    notMem_of_mem_splitStringLimit (firstLine_line rawHttp) hmem, _, hheaders⟩

theorem Fresh.pathText {target : Str} {r : Request} (h : Fresh target r) :
    r.pathText = match (targetPath target).getLast? with
      | none => .error .undefinedBehaviour
      | some c => .ok (if c = '/' then (targetPath target).dropLast
          else formatPath (targetPath target), {}) := by
  have hsize : ¬ ({} : Parameters).size > 0 := by decide
  cases hl : (targetPath target).getLast? with
  | none => simp only [Request.pathText, h.pathParams, if_neg hsize, h.path, hl]
  | some c => simp only [Request.pathText, h.pathParams, if_neg hsize, h.path, hl]

/-- The written path is the stored one up to slashes. -/
theorem Fresh.written {target : Str} {r : Request} (h : Fresh target r) {found : Str × Parameters}
    (hf : r.pathText = .ok found) : formatPath found.1 = formatPath (targetPath target) ∧
      ∀ c ∉ targetPath target, c ≠ '/' → c ∉ found.1 := by
  rw [h.pathText] at hf
  cases hl : (targetPath target).getLast? with
  | none => rw [hl] at hf; cases hf
  | some last =>
    rw [hl] at hf
    cases hf
    by_cases hslash : last = '/'
    · subst hslash
      have hpath : targetPath target = (targetPath target).dropLast ++ ['/'] :=
        (List.dropLast_append_getLast? '/' hl).symm
      refine ⟨?_, fun c hc hne hm => hc (List.mem_of_mem_dropLast ?_)⟩
      · rw [if_pos rfl, hpath, formatPath_concat_slash, ← hpath]
      · rwa [if_pos rfl] at hm
    · simp only [if_neg hslash]
      exact ⟨formatPath_idem _, fun c hc hne hm => hc (mem_of_mem_formatPath hm hne)⟩

/-- The text of a request can be read, and what comes out. -/
theorem Fresh.read {target : Str} {r : Request} (h : Fresh target r) {found : Str × Parameters}
    (hf : r.pathText = .ok found) (queryOrder order : IterationOrder HeaderField) :
    ∃ text r' again, r.prepareRequest queryOrder order = .ok (text, r') ∧
      Request.ofRaw text = .ok again ∧ again.method = r.method ∧
      again.path = targetPath ('/' :: (found.1 ++ sentQuery r queryOrder)) ∧
      again.headers.headers.entries.Perm (r.headers.headers.entries ++ defaultAgent r) := by
  obtain ⟨stream, hstream⟩ := h.headers
  obtain ⟨h₁, hperm, hread⟩ := initFromStream_fieldsText hstream (order.perm _) (r.agentText ++ crlf)
  obtain ⟨headers, hagent, hheaders⟩ := parseLines_agent hperm
  have hpath := (h.written hf).2
  have hquery : ∀ c, c ∉ target → c ≠ '?' ∧ c ≠ '&' ∧ c ≠ '=' → c ∉ sentQuery r queryOrder :=
    fun c hc hne => sentQuery_notMem (by rw [h.query]; exact parseQueryParameters_notMem hc) hne _
  have hsent : ∀ c, c ∉ target → c ≠ '/' → c ≠ '?' ∧ c ≠ '&' ∧ c ≠ '=' →
      c ∉ '/' :: (found.1 ++ sentQuery r queryOrder) := by
    intro c hc hslash hne
    simp [hslash, hpath c (notMem_targetPath hc hslash) hslash, hquery c hc hne]
  have hmethod : ' ' ∉ r.method.name ∧ r.method.name ≠ [] ∧ '\n' ∉ r.method.name := by
    cases r.method <;> decide
  have hversion : ' ' ∉ "HTTP/1.1".toList ∧ '\n' ∉ "HTTP/1.1".toList := by decide
  have hagain := ofRaw_rawRequest hmethod.1 hmethod.2.1
    (hsent ' ' h.space (by decide) (by decide)) (List.cons_ne_nil _ _) hversion.1
    ⟨hmethod.2.2, hsent '\n' h.line (by decide) (by decide), hversion.2⟩
    (fieldsText (order.order r.headers.headers.entries) ++ (r.agentText ++ crlf))
  rw [hread, hagent] at hagain
  exact ⟨_, _, _, prepareRequest_text h.body hf queryOrder order, hagain,
    methodFromString_name r.method, rfl, hheaders⟩

/-- An empty path cannot be written, so a target of slashes cannot. -/
theorem Fresh.pathText_ok_iff {target : Str} {r : Request} (h : Fresh target r) :
    (∃ found, r.pathText = .ok found) ↔ ∃ c ∈ target, c ≠ '/' := by
  have hsize : ¬ 0 < r.pathParams.size := by rw [h.pathParams]; decide
  rw [RequestFraming.pathText_ok_iff, or_iff_left hsize, h.path]
  obtain hmark | ⟨path, query, rfl, hpath, hmark⟩ | ⟨query, rfl⟩ := target_cases target
  · rw [targetPath_of_notMem hmark, Ne, formatPath_eq_nil_iff]
    simp
  · rw [targetPath_query hpath hmark]
    exact iff_of_true hpath ⟨'?', by simp, by decide⟩
  · rw [targetPath_mark, Ne, formatPath_eq_nil_iff]
    simp

/-- A received request without body and path parameters comes back from its own text with
the same method, normalised path and headers exactly when its target is not made of slashes
only and does not begin with a query mark. -/
theorem round_trips_iff {rawHttp : Str} {r : Request} (h : Request.ofRaw rawHttp = .ok r)
    (queryOrder order : IterationOrder HeaderField) :
    RoundTrips r queryOrder order ↔ ∃ target, targetOf rawHttp = some target ∧ Sendable target := by
  obtain ⟨target, htarget, hfresh⟩ := fresh_ofRaw h
  simp only [htarget, Option.some.injEq, exists_eq_left']
  constructor
  · rintro ⟨text, r', hp, again, hagain, -, hpath, -⟩
    obtain ⟨found, hf, -⟩ := prepareRequest_ok hp
    refine ⟨fun hhead => ?_, hfresh.pathText_ok_iff.mp ⟨found, hf⟩⟩
    obtain ⟨text', r'', again', hp', hagain', -, hpath', -⟩ := hfresh.read hf queryOrder order
    cases hp.symm.trans hp'
    cases hagain.symm.trans hagain'
    obtain ⟨query, rfl⟩ := List.head?_eq_some_iff.mp hhead
    -- behind the slash the query mark ends the path, which had it inside
    have hout : '?' ∉ formatPath again.path := by
      rw [hpath']
      exact fun hm => mark_notMem_targetPath _ (mem_of_mem_formatPath hm (by decide))
    rw [hpath, hfresh.path, targetPath_mark, formatPath_idem] at hout
    exact hout (mem_formatPath (List.mem_cons_self ..) (by decide))
  · rintro ⟨hhead, hchar⟩
    obtain ⟨found, hf⟩ := hfresh.pathText_ok_iff.mpr hchar
    obtain ⟨text, r', again, hp, hagain, hmethod, hpath, hheaders⟩ := hfresh.read hf queryOrder order
    refine ⟨text, r', hp, again, hagain, hmethod, ?_, hheaders⟩
    obtain ⟨hwritten, hchars⟩ := hfresh.written hf
    have hmark : '?' ∉ targetPath target := by
      obtain hnone | ⟨before, query, rfl, hne, hnone⟩ | ⟨query, rfl⟩ := target_cases target
      · exact notMem_targetPath hnone (by decide)
      · rwa [targetPath_query hne hnone]
      · exact absurd rfl hhead
    rw [hpath, formatPath_targetPath (hchars '?' hmark (by decide)) (sentQuery_cases r queryOrder),
      hwritten, hfresh.path]

/-- The root target is accepted and cannot be written. -/
theorem root_target_not_sent : ∃ r,
    Request.ofRaw "GET / HTTP/1.1\r\nHost: a\r\n".toList = .ok r ∧
      r.prepareRequest (IterationOrder.stored _) (IterationOrder.stored _) =
        .error .undefinedBehaviour ∧
      ¬ RoundTrips r (IterationOrder.stored _) (IterationOrder.stored _) := by
  have hsent : ∃ r, Request.ofRaw "GET / HTTP/1.1\r\nHost: a\r\n".toList = .ok r ∧
      r.prepareRequest (IterationOrder.stored _) (IterationOrder.stored _) =
        .error .undefinedBehaviour := ⟨_, rfl, rfl⟩
  obtain ⟨r, hr, hp⟩ := hsent
  refine ⟨r, hr, hp, ?_⟩
  rintro ⟨text, r', hp', -⟩
  cases hp.symm.trans hp'

theorem round_trips_iff_query : ∃ r,
    Request.ofRaw "GET /a//?x=1 HTTP/1.1\r\nHost: a\r\n".toList = .ok r ∧
      RoundTrips r (IterationOrder.stored _) (IterationOrder.stored _) := by
  have hread : ∃ r, Request.ofRaw "GET /a//?x=1 HTTP/1.1\r\nHost: a\r\n".toList = .ok r := ⟨_, rfl⟩
  obtain ⟨r, hr⟩ := hread
  exact ⟨r, hr, (round_trips_iff hr _ _).mpr
    ⟨"/a//?x=1".toList, rfl, by decide, 'a', by decide, by decide⟩⟩

end RoutineHttp.RequestRoundTrip
