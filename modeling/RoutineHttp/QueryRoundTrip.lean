import RoutineHttp.RequestRoundTrip
import RoutineHttp.Splitters

/-! The query text written for parameters that were parsed from a query, parsed again. A key
has no equals sign and neither key nor value an ampersand, so each written parameter is one
piece that is cut where it was put together. -/
namespace RoutineHttp.QueryRoundTrip
open Lib Splitters RequestRoundTrip

/-- The map `parse_query_parameters` stores for a string. -/
def queryMap (string : Str) : Dictionary Str Str := (parseQueryParameters {} string).2.params

/-- What is behind the first query mark. -/
def query (string : Str) : Str := (string.dropWhile fun c => decide (c ≠ '?')).drop 1

/-- The text written for one parameter. -/
def parameterText (field : HeaderField) : Str := field.1 ++ '=' :: field.2

theorem foldl_emplace (tokens : List Str) (params : Parameters) :
    tokens.foldl (fun params str => params.emplace (splitParameter str).1 (splitParameter str).2)
      params = ⟨emplaceAll params.params (tokens.map splitParameter)⟩ := by
  induction tokens generalizing params with
  | nil => rfl
  | cons token tokens ih =>
    rw [List.foldl_cons, ih]
    rfl

theorem queryMap_append {before : Str} (h : '?' ∉ before) (text : Str) :
    queryMap (before ++ '?' :: text) =
      emplaceAll ∅ ((splitString text '&').map splitParameter) := by
  have hdrop : (before ++ '?' :: text).drop (before.length + 1) = text := by
    rw [List.drop_append]
    simp
  simp only [queryMap, parseQueryParameters, find_append h, hdrop, foldl_emplace]

theorem queryMap_of_notMem {string : Str} (h : '?' ∉ string) : queryMap string = ∅ := by
  simp only [queryMap, parseQueryParameters, find_eq_none h]

theorem eq_append_query {string : Str} (h : '?' ∈ string) :
    ∃ before, '?' ∉ before ∧ string = before ++ '?' :: query string := by
  obtain ⟨before, text, rfl, hbefore⟩ := List.eq_append_cons_of_mem h
  refine ⟨before, hbefore, ?_⟩
  have hall : ∀ c ∈ before, decide (c ≠ '?') = true := fun c hc =>
    decide_eq_true fun he => hbefore (he ▸ hc)
  rw [query, List.dropWhile_append_of_pos hall, List.dropWhile_cons_of_neg (by simp)]
  rfl

/-- The first of the pieces with a key says what is stored under it. -/
theorem lookup_queryMap_iff {string : Str} (h : '?' ∈ string) {key value : Str} :
    (queryMap string).lookup key = some value ↔
      FirstBound ((segments '&' (query string)).map splitParameter) key value := by
  obtain ⟨before, hbefore, hstring⟩ := eq_append_query h
  rw [← splitString_eq_segments]
  conv_lhs => rw [hstring, queryMap_append hbefore]
  exact lookup_emplaceAll_empty

theorem splitParameter_key (str : Str) : '=' ∉ (splitParameter str).1 := by
  unfold splitParameter
  split
  · next h =>
    intro hmem
    obtain ⟨before, rest, rfl, hbefore⟩ := List.eq_append_cons_of_mem hmem
    rw [find_append hbefore] at h
    cases h
  · next ind h => exact (find_spec h).2.2

theorem splitParameter_parameterText {field : HeaderField} (h : '=' ∉ field.1) :
    splitParameter (parameterText field) = (field.1, field.2) := by
  simp only [splitParameter, parameterText, find_append h, List.take_left]
  rw [List.drop_append]
  simp

/-- What the parser stores can be told apart once written. -/
theorem stored_separable {string : Str} {field : HeaderField}
    (h : field ∈ (queryMap string).entries) : '=' ∉ field.1 ∧ '&' ∉ parameterText field := by
  have hlookup : (queryMap string).lookup field.1 = some field.2 := AList.mem_lookup_iff.mpr h
  by_cases hmark : '?' ∈ string
  · obtain ⟨token, htoken, hsplit⟩ := List.mem_map.mp ((lookup_queryMap_iff hmark).mp hlookup).mem
    rw [← splitString_eq_segments] at htoken
    have hamp : '&' ∉ token := by
      rw [splitString_eq_tokens] at htoken
      exact (tokens_segments '&' _ token htoken).2
    have hparts := RequestFraming.splitParameter_notMem hamp
    have hkey := splitParameter_key token
    rw [hsplit] at hparts hkey
    exact ⟨hkey, by simpa [parameterText] using hparts⟩
  · rw [queryMap_of_notMem hmark] at h
    cases h

theorem splitString_queryText {fields : List HeaderField}
    (h : ∀ field ∈ fields, '&' ∉ parameterText field) :
    splitString (Request.queryText fields) '&' = fields.map parameterText := by
  have hsegments : Segments '&' (fields.map parameterText) := by
    intro text htext
    obtain ⟨field, hfield, rfl⟩ := List.mem_map.mp htext
    exact ⟨by simp [parameterText], h field hfield⟩
  rw [splitString_eq_tokens]
  exact tokens_intercalate '&' _ hsegments

/-- The written query is read back as the parameters it was written for. -/
theorem queryMap_queryText {string before : Str} (hbefore : '?' ∉ before)
    {fields : List HeaderField} (hfields : fields.Perm (queryMap string).entries) (key : Str) :
    (queryMap (before ++ '?' :: Request.queryText fields)).lookup key =
      (queryMap string).lookup key := by
  have hstored : ∀ field ∈ fields, '=' ∉ field.1 ∧ '&' ∉ parameterText field :=
    fun field hfield => stored_separable (hfields.mem_iff.mp hfield)
  have hpieces : (fields.map parameterText).map splitParameter =
      fields.map fun field => (field.1, field.2) := by
    rw [List.map_map]
    refine List.map_congr_left fun field hfield => ?_
    exact splitParameter_parameterText (hstored field hfield).1
  rw [queryMap_append hbefore, splitString_queryText fun field hfield => (hstored field hfield).2,
    hpieces, lookup_emplaceAll_perm hfields]

/-- A repeated key, a piece without a value, an empty key, doubled and final ampersands. -/
def mixedTarget : Str := "/s?a=1&&b&=c==?&a=2&".toList

def reversed : IterationOrder HeaderField := ⟨List.reverse, List.reverse_perm⟩

def plainGet : Request := { method := .get, path := "s".toList, version := .http11 }

end RoutineHttp.QueryRoundTrip
