import RoutineHttp.RouteHandler

/-! The framing of a request that is sent on: every parsed header is written again and a
Content-Length line is added for the body. -/
namespace RoutineHttp.RequestFraming
open Lib

/-- The requests a program can hold: parsed from text, routed, given parameters that stay
within their line, given any body, or already written once. -/
inductive Received : Request → Prop where
  | parsed (rawHttp : Str) {r : Request} (h : Request.ofRaw rawHttp = .ok r) : Received r
  | routed {r : Request} {α : Type} (order : NodeOrder α) (router : RouteHandler α)
      (h : Received r) : Received (RouteHandler.route order router r).2
  | queryParam {r : Request} {key value : Str} (hk : '\n' ∉ key) (hv : '\n' ∉ value)
      (h : Received r) : Received { r with queryParams := r.queryParams.emplace key value }
  | pathParam {r : Request} (key : Str) {value : Str} (hv : '\n' ∉ value) (h : Received r) :
      Received { r with pathParams := r.pathParams.emplace key value }
  | body {r : Request} (storage : Option BodyStorage) (h : Received r) :
      Received { r with body := storage }
  | prepared {r r' : Request} {text : Str} {queryOrder order : IterationOrder HeaderField}
      (hp : r.prepareRequest queryOrder order = .ok (text, r')) (h : Received r) : Received r'

/-- What holds of every received request: nothing in it leaves its line. -/
structure LineBound (r : Request) : Prop where
  path : '\n' ∉ r.path
  query : ∀ e ∈ r.queryParams.params.entries, '\n' ∉ e.1 ∧ '\n' ∉ e.2
  pathValues : ∀ e ∈ r.pathParams.params.entries, '\n' ∉ e.2
  headers : ∀ e ∈ r.headers.headers.entries, ParsedField e

theorem notMem_of_mem_splitString {input token : Str} {delim c : Char} (hc : c ∉ input)
    (ht : token ∈ splitString input delim) : c ∉ token := by
  rw [splitString_eq_tokens] at ht
  exact fun h => hc (mem_of_mem_tokens ht h)

theorem notMem_of_mem_splitStringLimit {input token : Str} {delim c : Char} {limit : Nat}
    (hc : c ∉ input) (ht : token ∈ splitStringLimit input delim limit) : c ∉ token :=
  fun h => hc (mem_of_mem_records (List.mem_of_mem_take (List.mem_of_mem_filter ht)) h)

theorem splitParameter_notMem {str : Str} {c : Char} (h : c ∉ str) :
    c ∉ (splitParameter str).1 ∧ c ∉ (splitParameter str).2 := by
  unfold splitParameter
  split
  · exact ⟨h, List.not_mem_nil⟩
  · exact ⟨fun hc => h (List.mem_of_mem_take hc), fun hc => h (List.mem_of_mem_drop hc)⟩

/-- The parameters of a target are made of its characters. -/
theorem parseQueryParameters_notMem {target : Str} {c : Char} (h : c ∉ target) :
    ∀ e ∈ (parseQueryParameters {} target).2.params.entries, c ∉ e.1 ∧ c ∉ e.2 := by
  have hfold : ∀ (tokens : List Str) (params : Parameters), (∀ token ∈ tokens, c ∉ token) →
      (∀ e ∈ params.params.entries, c ∉ e.1 ∧ c ∉ e.2) →
      ∀ e ∈ (tokens.foldl (fun params str => params.emplace (splitParameter str).1
        (splitParameter str).2) params).params.entries, c ∉ e.1 ∧ c ∉ e.2 := by
    intro tokens
    induction tokens with
    | nil => exact fun params _ hp => hp
    | cons token tokens ih =>
      intro params ht hp
      exact ih _ (fun t hm => ht t (List.mem_cons_of_mem _ hm))
        (forall_entries_emplace hp (splitParameter_notMem (ht token (by simp))))
  unfold parseQueryParameters
  split
  · simp
  · refine hfold _ {} (fun token ht => ?_) (by simp)
    exact notMem_of_mem_splitString (fun hc => h (List.mem_of_mem_drop hc)) ht

theorem firstLine_line (rawHttp : Str) : '\n' ∉ ((getline rawHttp '\n').getD ([], [])).1 := by
  cases rawHttp with
  | nil => simp [getline, readUntil]
  | cons c rest =>
    rw [getline, readUntil_eq (List.cons_ne_nil c rest)]
    exact fun hc => absurd (List.mem_takeWhile_imp hc) (by simp)

theorem lineBound_ofRaw {rawHttp : Str} {r : Request} (h : Request.ofRaw rawHttp = .ok r) :
    LineBound r := by
  obtain ⟨method, target, version, headers, -, htarget, -, hheaders, rfl⟩ := Request.ofRaw_ok h
  have ht : '\n' ∉ target :=
    notMem_of_mem_splitStringLimit (firstLine_line rawHttp) (List.mem_of_getElem? htarget)
  refine ⟨?_, parseQueryParameters_notMem ht, by simp,
    Headers.initFromStream_parsed hheaders (by simp)⟩
  dsimp only
  split
  · exact fun hc => ht (mem_of_mem_formatPath hc (by decide))
  · exact fun hc => ht (List.mem_of_mem_take hc)

theorem walk_pathValues {α : Type} {order : NodeOrder α} {node : ResourceHandler α}
    {params : Parameters} {keys : List Str} (hkeys : ∀ key ∈ keys, '\n' ∉ key)
    (hp : ∀ e ∈ params.params.entries, '\n' ∉ e.2) :
    ∀ e ∈ (RouteHandler.walk order node params keys).2.params.entries, '\n' ∉ e.2 := by
  induction keys generalizing node params with
  | nil => exact hp
  | cons key keys ih =>
    have hrest : ∀ key' ∈ keys, '\n' ∉ key' := fun k hk => hkeys k (List.mem_cons_of_mem _ hk)
    rw [RouteHandler.walk]
    split
    · exact ih hrest hp
    · split
      · exact hp
      · exact ih hrest (forall_entries_emplace hp (hkeys key (by simp)))

theorem lineBound_route {α : Type} {order : NodeOrder α} {router : RouteHandler α}
    {r : Request} (h : LineBound r) : LineBound (RouteHandler.route order router r).2 := by
  unfold RouteHandler.route
  split
  · exact h
  · exact ⟨h.path, h.query,
      walk_pathValues (fun key hk => notMem_of_mem_splitString h.path hk) h.pathValues, h.headers⟩

theorem getOrCreate_line {params : Parameters} {key : Str}
    (hp : ∀ e ∈ params.params.entries, '\n' ∉ e.2) :
    '\n' ∉ (params.getOrCreate key).1 ∧
      ∀ e ∈ (params.getOrCreate key).2.params.entries, '\n' ∉ e.2 := by
  unfold Parameters.getOrCreate getOrCreate
  cases hl : params.params.lookup key with
  | some value =>
    exact ⟨hp ⟨key, value⟩ (AList.mem_lookup_iff.mp hl), hp⟩
  | none =>
    refine ⟨List.not_mem_nil, fun e he => ?_⟩
    obtain rfl | ⟨-, he⟩ := mem_entries_insert.mp he
    · exact List.not_mem_nil
    · exact hp e he

theorem templateText_line {last : Option Str} {params : Parameters} {segments : List Str}
    (hs : ∀ segment ∈ segments, '\n' ∉ segment)
    (hp : ∀ e ∈ params.params.entries, '\n' ∉ e.2) :
    '\n' ∉ (Request.templateText last params segments).1 ∧
      ∀ e ∈ (Request.templateText last params segments).2.params.entries, '\n' ∉ e.2 := by
  induction segments generalizing params with
  | nil => exact ⟨List.not_mem_nil, hp⟩
  | cons segment rest ih =>
    have hrest : ∀ segment' ∈ rest, '\n' ∉ segment' := fun s hm => hs s (List.mem_cons_of_mem _ hm)
    have hfound : '\n' ∉ (if isParameter segment then params.getOrCreate (parameterName segment)
        else (segment, params)).1 ∧ ∀ e ∈ (if isParameter segment then
          params.getOrCreate (parameterName segment) else (segment, params)).2.params.entries,
        '\n' ∉ e.2 := by
      split
      · exact getOrCreate_line hp
      · exact ⟨hs segment (by simp), hp⟩
    obtain ⟨htext, hparams⟩ := ih hrest hfound.2
    refine ⟨?_, hparams⟩
    rw [Request.templateText]
    simp only [List.mem_append, not_or]
    refine ⟨⟨hfound.1, ?_⟩, htext⟩
    split <;> decide

/-- The path text is defined unless it would look at the end of an empty path. -/
theorem pathText_ok_iff {r : Request} :
    (∃ found, r.pathText = .ok found) ↔ r.path ≠ [] ∨ 0 < r.pathParams.size := by
  unfold Request.pathText
  by_cases hsize : r.pathParams.size > 0
  · simp [hsize]
  · cases hl : r.path.getLast? with
    | none => simp [hsize, List.getLast?_eq_none_iff.mp hl]
    | some c =>
      have hne : r.path ≠ [] := fun h => by simp [h] at hl
      simp [hsize, hne]

theorem pathText_line {r : Request} (h : LineBound r) {found : Str × Parameters}
    (hf : r.pathText = .ok found) :
    '\n' ∉ found.1 ∧ ∀ e ∈ found.2.params.entries, '\n' ∉ e.2 := by
  unfold Request.pathText at hf
  split at hf
  · cases hf
    exact templateText_line (fun s hs => notMem_of_mem_splitString h.path hs) h.pathValues
  · split at hf
    · cases hf
    · cases hf
      refine ⟨?_, h.pathValues⟩
      dsimp only
      split
      · exact fun hc => h.path (List.mem_of_mem_dropLast hc)
      · exact fun hc => h.path (mem_of_mem_formatPath hc (by decide))

/-- What writing a request takes: a defined path and a readable body. -/
theorem prepareRequest_ok {r r' : Request} {queryOrder order : IterationOrder HeaderField}
    {text : Str} (h : r.prepareRequest queryOrder order = .ok (text, r')) :
    ∃ found, r.pathText = .ok found ∧ r' = { r with pathParams := found.2 } := by
  obtain ⟨found, hfound, h⟩ := bind_eq_ok h
  obtain ⟨parts, -, h⟩ := bind_eq_ok h
  obtain ⟨-, rfl⟩ := Prod.mk.inj (Except.ok.inj h)
  exact ⟨found, hfound, rfl⟩

theorem Received.lineBound {r : Request} (h : Received r) : LineBound r := by
  induction h with
  | parsed rawHttp h => exact lineBound_ofRaw h
  | routed order router _ ih => exact lineBound_route ih
  | queryParam hk hv _ ih =>
    exact ⟨ih.path, forall_entries_emplace ih.query ⟨hk, hv⟩, ih.pathValues, ih.headers⟩
  | pathParam key hv _ ih =>
    exact ⟨ih.path, ih.query, forall_entries_emplace ih.pathValues hv, ih.headers⟩
  | body storage _ ih => exact ⟨ih.path, ih.query, ih.pathValues, ih.headers⟩
  | prepared hp _ ih =>
    obtain ⟨found, hf, rfl⟩ := prepareRequest_ok hp
    exact ⟨ih.path, ih.query, (pathText_line ih hf).2, ih.headers⟩

def agentField : HeaderField := ⟨"User-Agent".toList, "Asio/RoutineHttp".toList⟩

def lengthField (data : Str) : HeaderField := ⟨"Content-Length".toList, toDecimal data.length⟩

/-- The fields written after the parsed ones. -/
def addedFields (r : Request) (data : Str) : List HeaderField :=
  (if r.headers.contains Header.userAgent.name then [] else [agentField]) ++ [lengthField data]

def message (r : Request) (path data : Str) (queryOrder order : IterationOrder HeaderField) :
    Message :=
  { startLine := r.requestLine path queryOrder
    fieldLines := (order.order r.headers.headers.entries ++ addedFields r data).map
      HeaderField.asString
    body := data }

theorem addedFields_text (r : Request) (data : Str) :
    (addedFields r data).flatMap (fun field => field.asString ++ crlf) =
      r.agentText ++ ("Content-Length: ".toList ++ toDecimal data.length ++ crlf) := by
  have hagent : agentField.asString = "User-Agent: Asio/RoutineHttp".toList := by decide
  have hlength : (lengthField data).asString =
      "Content-Length: ".toList ++ toDecimal data.length := by
    rw [HeaderField.asString]
    rfl
  rw [addedFields, Request.agentText, List.flatMap_append, List.flatMap_singleton, hlength]
  split
  · rfl
  · rw [List.flatMap_singleton, hagent]

theorem prepareRequest_eq {r : Request} {data : Str} (hbody : r.body = some (.memory data))
    {found : Str × Parameters} (hf : r.pathText = .ok found)
    (queryOrder order : IterationOrder HeaderField) :
    r.prepareRequest queryOrder order = .ok (Message.write (message r found.1 data queryOrder order),
      { r with pathParams := found.2 }) := by
  have htext : r.bodyText =
      .ok ("Content-Length: ".toList ++ toDecimal data.length ++ crlf, data) := by
    rw [Request.bodyText, hbody]
    rfl
  rw [Request.prepareRequest, hf, htext, message, write_fields, List.flatMap_append,
    addedFields_text]
  simp only [bind, Except.bind, pure, Except.pure, List.append_assoc]

theorem requestLine_line {r : Request} (h : LineBound r) {path : Str} (hpath : '\n' ∉ path)
    (queryOrder : IterationOrder HeaderField) : '\n' ∉ r.requestLine path queryOrder := by
  have hquery : '\n' ∉ Request.queryText (queryOrder.order r.queryParams.params.entries) := by
    intro hc
    obtain hc | ⟨token, ht, hc⟩ := mem_intercalate hc
    · exact absurd hc (by decide)
    · obtain ⟨field, hfield, rfl⟩ := List.mem_map.mp ht
      obtain ⟨hk, hv⟩ := h.query field ((queryOrder.perm _).mem_iff.mp hfield)
      simp [hk, hv] at hc
  have hmethod : '\n' ∉ r.method.name := by cases r.method <;> decide
  simp only [Request.requestLine, List.mem_append, not_or]
  refine ⟨⟨⟨⟨hmethod, by decide⟩, hpath⟩, ?_⟩, by decide⟩
  split
  · simp [hquery]
  · exact List.not_mem_nil

theorem addedFields_line {r : Request} {data : Str} {field : HeaderField}
    (h : field ∈ addedFields r data) : '\n' ∉ field.asString ∧ field.asString ≠ [] := by
  rw [addedFields, List.mem_append, List.mem_singleton] at h
  obtain h | rfl := h
  · split at h
    · cases h
    · cases List.mem_singleton.mp h
      exact HeaderField.asString_line (by decide) (by decide)
  · have hname : '\n' ∉ "Content-Length".toList := by decide
    exact HeaderField.asString_line hname (lineText_toDecimal data.length).2

theorem parse_message {r : Request} (h : LineBound r) {path : Str} (hpath : '\n' ∉ path)
    (data : Str) (queryOrder order : IterationOrder HeaderField) :
    Message.parse (Message.write (message r path data queryOrder order)) =
      some (message r path data queryOrder order) := by
  refine Message.parse_write _ (requestLine_line h hpath queryOrder) fun line hline => ?_
  obtain ⟨field, hfield, rfl⟩ := List.mem_map.mp hline
  obtain hfield | hfield := List.mem_append.mp hfield
  · have hparsed := h.headers field ((order.perm _).mem_iff.mp hfield)
    exact HeaderField.asString_line hparsed.nameLine hparsed.valueLine
  · exact addedFields_line hfield

/-- Whether a receiver takes the line of a field for content-length. -/
def readsContentLength (field : HeaderField) : Bool :=
  decide ((Message.fieldName field.asString).map Char.toLower = "content-length".toList)

theorem nameColon_take {field : HeaderField} (h : ParsedField field) (hc : ':' ∈ field.1) :
    ':' ∈ field.asString.take 2 := by
  rw [← List.take_append_drop 2 field.1, List.mem_append] at hc
  obtain hc | hc := hc
  · rw [HeaderField.asString, List.append_assoc, List.take_append_of_le_length h.nameLength]
    exact hc
  · exact absurd hc h.nameColon

/-- A parsed field reads as content-length exactly when it was stored under that name: a
colon among its first two characters leaves a receiver a shorter name. -/
theorem readsContentLength_parsed {field : HeaderField} (h : ParsedField field) :
    readsContentLength field = true ↔ field.1 = "content-length".toList := by
  rw [readsContentLength, decide_eq_true_iff]
  by_cases hc : ':' ∈ field.1
  · have hshort := Message.length_fieldName_lt (nameColon_take h hc)
    have hlong : "content-length".toList.length = 14 := rfl
    constructor
    · intro hname
      have hlen := congrArg List.length hname
      rw [List.length_map, hlong] at hlen
      omega
    · intro hname
      rw [hname] at hc
      exact absurd hc (by decide)
  · rw [fieldName_asString hc, h.nameLower]

theorem filter_addedFields (r : Request) (data : Str) :
    (addedFields r data).filter readsContentLength = [lengthField data] := by
  have hagent : readsContentLength agentField = false := by decide
  have hlength : readsContentLength (lengthField data) = true := by
    have hcolon : ':' ∉ (lengthField data).1 := show ':' ∉ "Content-Length".toList by decide
    have hlower : "Content-Length".toList.map Char.toLower = "content-length".toList := by decide
    rw [readsContentLength, fieldName_asString hcolon]
    exact decide_eq_true hlower
  rw [addedFields]
  split <;> simp [hagent, hlength]

/-- The values a receiver finds: those of the parsed fields, then the body's. -/
theorem valuesOf_message {r : Request} (path data : Str)
    (queryOrder order : IterationOrder HeaderField) :
    (message r path data queryOrder order).valuesOf "content-length".toList =
      ((order.order r.headers.headers.entries).filter readsContentLength).map
          (fun field => Message.fieldValue field.asString) ++ [toDecimal data.length] := by
  have hvalue : Message.fieldValue (lengthField data).asString = toDecimal data.length :=
    fieldValue_asString (show ':' ∉ "Content-Length".toList by decide)
      fun c hc => isBlank_of_mem_toDecimal hc
  have hfilter := filter_addedFields r data
  rw [Message.valuesOf, message, List.filter_map, List.map_map]
  simp only [Function.comp_def, List.filter_append, List.map_append]
  exact congrArg _ (by rw [← hvalue]; exact congrArg _ hfilter)

/-- The written request is one message in which exactly one field named content-length in
some case gives the number of bytes after the head. -/
def Framed (r : Request) (queryOrder order : IterationOrder HeaderField) : Prop :=
  ∃ text r', r.prepareRequest queryOrder order = .ok (text, r') ∧ ∃ m,
    Message.parse text = some m ∧ m.valuesOf "content-length".toList = [toDecimal m.body.length]

theorem no_length_of_framed {r : Request} (h : LineBound r) {data : Str}
    (hbody : r.body = some (.memory data)) {queryOrder order : IterationOrder HeaderField}
    (hframed : Framed r queryOrder order) :
    r.headers.contains Header.contentLength.name = false ∧
      (r.path ≠ [] ∨ 0 < r.pathParams.size) := by
  obtain ⟨text, r', hp, m, hm, hone⟩ := hframed
  obtain ⟨found, hf, -⟩ := prepareRequest_ok hp
  refine ⟨?_, pathText_ok_iff.mp ⟨found, hf⟩⟩
  rw [prepareRequest_eq hbody hf] at hp
  cases hp
  rw [parse_message h (pathText_line h hf).1] at hm
  cases hm
  rw [valuesOf_message] at hone
  have hnone : (order.order r.headers.headers.entries).filter readsContentLength = [] := by
    simpa [message] using hone
  refine decide_eq_false fun hmem => ?_
  obtain ⟨value, he⟩ := mem_iff_exists_entry.mp hmem
  have hreads := (readsContentLength_parsed (h.headers _ he)).mpr rfl
  exact List.filter_eq_nil_iff.mp hnone _ ((order.perm _).mem_iff.mpr he) hreads

end RoutineHttp.RequestFraming
