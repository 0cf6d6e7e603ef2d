import RoutineHttp.ParameterFields
import RoutineHttp.PathTemplate
import RoutineHttp.RequestRelay

/-! Path parameters from a client to a handler. A client writes them into a template, a server
reads them out of the path along a pattern; with the same segments on both sides the handler
finds the client's values. -/
namespace RoutineHttp.ParameterDelivery
open Lib HttpSession RouteHandler Routing PathBindings PathTemplate RequestRoundTrip RequestRelay
open QueryRoundTrip ParameterFields

/-- A text that can stand for a segment of a target. -/
structure SegmentText (value : Str) : Prop where
  nonempty : value ≠ []
  slash : '/' ∉ value
  mark : '?' ∉ value
  space : ' ' ∉ value
  line : '\n' ∉ value

/-- A template the parameters fill: its parameters are bound, to segments other than
themselves, and its last segment closes it. -/
structure Fills (path : Str) (params : Parameters) : Prop where
  segments : splitString path '/' ≠ []
  wellBraced : WellBraced (splitString path '/')
  once : LastOnce (splitString path '/')
  bound : AllBound params (splitString path '/')
  size : params.size > 0
  values : ∀ name value, template name ∈ splitString path '/' →
    params.params.lookup name = some value → SegmentText value ∧ value ≠ template name

/-- The path the template stands for. -/
def filled (path : Str) (params : Parameters) : Str :=
  ['/'].intercalate ((splitString path '/').map (piece params))

theorem piece_template {params : Parameters} {name value : Str}
    (h : params.params.lookup name = some value) : piece params (template name) = value := by
  rw [piece, if_pos (isParameter_template name), parameterName_template, h, Option.getD_some]

namespace Fills
variable {path : Str} {params : Parameters}

/-- A segment stands for itself, or for the value of its name. -/
theorem piece_cases (h : Fills path params) {segment : Str}
    (hsegment : segment ∈ splitString path '/') :
    (isParameter segment = false ∧ piece params segment = segment) ∨
      ∃ name value, segment = template name ∧ params.params.lookup name = some value ∧
        piece params segment = value := by
  cases hp : isParameter segment with
  | false =>
    refine Or.inl ⟨rfl, ?_⟩
    rw [piece, hp]
    rfl
  | true =>
    obtain ⟨name, rfl⟩ := h.wellBraced segment hsegment hp
    have hcontains := h.bound _ hsegment hp
    rw [parameterName_template] at hcontains
    obtain ⟨value, hvalue⟩ := mem_iff_exists_lookup.mp (of_decide_eq_true hcontains)
    exact Or.inr ⟨name, value, rfl, hvalue, piece_template hvalue⟩

/-- The pieces are segments again. -/
theorem pieces (h : Fills path params) :
    Segments '/' ((splitString path '/').map (piece params)) := by
  intro out hout
  obtain ⟨segment, hsegment, rfl⟩ := List.mem_map.mp hout
  obtain ⟨-, hpiece⟩ | ⟨name, value, rfl, hvalue, hpiece⟩ := h.piece_cases hsegment
  · rw [hpiece]
    rw [splitString_eq_tokens] at hsegment
    exact tokens_segments '/' path segment hsegment
  · rw [hpiece]
    have htext := (h.values name value hsegment hvalue).1
    exact ⟨htext.nonempty, htext.slash⟩

theorem splitString_filled (h : Fills path params) :
    splitString (filled path params) '/' = (splitString path '/').map (piece params) := by
  rw [splitString_eq_tokens, filled, tokens_intercalate '/' _ h.pieces]

theorem formatPath_filled (h : Fills path params) :
    formatPath (filled path params) = filled path params :=
  (formatPath_eq_self_iff _).mpr (normal_intercalate h.pieces)

theorem filled_ne_nil (h : Fills path params) : filled path params ≠ [] := by
  intro hnil
  have hsplit := h.splitString_filled
  rw [hnil] at hsplit
  exact h.segments (List.map_eq_nil_iff.mp hsplit.symm)

/-- A character of the filled path is one of the template or of a value. -/
theorem notMem_filled (h : Fills path params) {c : Char} (hslash : c ≠ '/') (hpath : c ∉ path)
    (hvalue : ∀ value, SegmentText value → c ∉ value) : c ∉ filled path params := by
  intro hmem
  obtain heq | ⟨out, hout, hc⟩ := mem_intercalate hmem
  · exact hslash heq
  · obtain ⟨segment, hsegment, rfl⟩ := List.mem_map.mp hout
    obtain ⟨-, hpiece⟩ | ⟨name, value, rfl, hlookup, hpiece⟩ := h.piece_cases hsegment
    · rw [hpiece] at hc
      rw [splitString_eq_tokens] at hsegment
      exact hpath (mem_of_mem_tokens hsegment hc)
    · rw [hpiece] at hc
      exact hvalue value (h.values name value hsegment hlookup).1 hc

end Fills

/-- The template of a request with these parameters is sent filled. -/
theorem pathText_template {base : Request} {params : Parameters} (h : Fills base.path params) :
    Request.pathText { base with pathParams := params } = .ok (filled base.path params, params) := by
  have hexpanded : Expanded { base with pathParams := params } :=
    (@expanded_iff_of_wellBraced { base with pathParams := params } h.size h.wellBraced).mpr
      ⟨h.bound, h.once⟩
  obtain ⟨outs, hforall, htext⟩ := hexpanded
  rw [forall₂_expands_iff h.wellBraced h.bound] at hforall
  rw [htext, hforall]
  rfl

/-- The same request to the filled path. -/
def plain (base : Request) (params : Parameters) : Request :=
  { base with path := filled base.path params, pathParams := {} }

theorem pathText_plain {base : Request} {params : Parameters} (h : Fills base.path params) :
    (plain base params).pathText = .ok (filled base.path params, {}) := by
  have hsize : ¬ ({} : Parameters).size > 0 := by decide
  have hlast : (filled base.path params).getLast? ≠ some '/' :=
    ((formatPath_eq_self_iff _).mp h.formatPath_filled).2.1
  obtain ⟨c, hc⟩ := Option.isSome_iff_exists.mp (List.getLast?_isSome.mpr h.filled_ne_nil)
  rw [Request.pathText, plain, if_neg hsize]
  simp only [hc]
  rw [if_neg fun heq : c = '/' => hlast (heq ▸ hc), h.formatPath_filled]

/-- Filling a template leaves a target with the same query. -/
theorem exists_target {base : Request} {params : Parameters} {target : Str}
    (h : Fills base.path params) (hfresh : Fresh target { base with body := none })
    (hendures : Endures target) :
    ∃ target', Fresh target' { plain base params with body := none } ∧ Endures target' := by
  have hpath : base.path = targetPath target := hfresh.path
  have hquery : base.queryParams = ⟨queryMap target⟩ := hfresh.query
  have hclean : ∀ c, c ≠ '/' → c ∉ target → (∀ value, SegmentText value → c ∉ value) →
      c ∉ filled base.path params := fun c hslash htarget hvalue =>
    h.notMem_filled hslash (hpath ▸ notMem_targetPath htarget hslash) hvalue
  have hspace := hclean ' ' (by decide) hfresh.space fun _ hv => hv.space
  have hline := hclean '\n' (by decide) hfresh.line fun _ hv => hv.line
  have hmark : '?' ∉ filled base.path params := by
    refine h.notMem_filled (by decide) ?_ fun _ hv => hv.mark
    rw [hpath]
    obtain hnone | ⟨before, query, rfl, hne, hnone⟩ | ⟨query, rfl⟩ := target_cases target
    · exact notMem_targetPath hnone (by decide)
    · rwa [targetPath_query hne hnone]
    · exact absurd rfl hendures.1
  have hhead : (filled base.path params).head? ≠ some '?' :=
    fun heq => hmark (List.mem_of_mem_head? heq)
  obtain hnone | ⟨before, query, rfl, hne, hnone⟩ | ⟨query, rfl⟩ := target_cases target
  · have htarget := (targetPath_of_notMem hmark).trans h.formatPath_filled
    refine ⟨filled base.path params, ⟨htarget.symm, ?_, rfl, rfl, hspace, hline, hfresh.headers⟩,
      hhead, Or.inl ?_⟩
    · change base.queryParams = ⟨queryMap (filled base.path params)⟩
      rw [hquery, queryMap_of_notMem hnone, queryMap_of_notMem hmark]
    · rw [htarget, h.formatPath_filled]
      exact h.filled_ne_nil
  · have htarget := targetPath_query h.filled_ne_nil hmark query
    have hrest : ∀ c, c ∉ before ++ '?' :: query → c ∉ '?' :: query :=
      fun c hc hmem => hc (List.mem_append_right _ hmem)
    refine ⟨filled base.path params ++ '?' :: query, ⟨htarget.symm, ?_, rfl, rfl,
      List.not_mem_append hspace (hrest _ hfresh.space),
      List.not_mem_append hline (hrest _ hfresh.line), hfresh.headers⟩, ?_, Or.inl ?_⟩
    · change base.queryParams = ⟨queryMap (filled base.path params ++ '?' :: query)⟩
      rw [hquery, queryMap_append hnone, queryMap_append hmark]
    · rw [List.head?_append_of_ne_nil _ h.filled_ne_nil]
      exact hhead
    · rw [htarget, h.formatPath_filled]
      exact h.filled_ne_nil
  · exact absurd rfl hendures.1

theorem relayable_plain {base : Request} {params : Parameters} {data : Option Str}
    (hr : Relayable base data) (h : Fills base.path params) :
    Relayable (plain base params) data := by
  obtain ⟨target, hfresh, hendures⟩ := hr.fresh
  exact ⟨exists_target h hfresh hendures, hr.body, hr.plain, hr.length, hr.fits⟩

/-- The request with its template and the plain one have one text. -/
theorem prepareRequest_template {base : Request} {params : Parameters} {data : Option Str}
    (hr : Relayable base data) (h : Fills base.path params)
    (queryOrder order : IterationOrder HeaderField) {sent : Str × Request}
    (hsent : (plain base params).prepareRequest queryOrder order = .ok sent) :
    ∃ after, Request.prepareRequest { base with pathParams := params } queryOrder order =
      .ok (sent.1, after) := by
  have hplain := prepareRequest_message (r := plain base params) hr.body (pathText_plain h)
    queryOrder order
  rw [hsent] at hplain
  rw [Except.ok.inj hplain]
  exact ⟨_, prepareRequest_message (r := { base with pathParams := params }) hr.body
    (pathText_template h) queryOrder order⟩

theorem received_pathParams (w : Segmentation.WireRequest) : (received w).pathParams = {} := by
  obtain ⟨target, -, hfresh⟩ := fresh_ofRaw w.parsed
  exact hfresh.pathParams

variable {α : Type}

/-- A request to the filled path binds the client's values along the pattern. -/
theorem lookup_route {path : α → Str} {handlers : List α} {r : RouteHandler α}
    (hr : Represents (handlers.map fun handler => (path handler, handler)) r)
    {order : NodeOrder α} {request : Request} {handler : α} {pattern : Str} {params : Parameters}
    (h : Fills pattern params) (hempty : request.pathParams = {})
    (hsegments : splitString request.path '/' = (splitString pattern '/').map (piece params))
    (hroute : (route order r request).1 = some handler) (hdyn : isStatic (path handler) = false)
    (hpattern : splitString (path handler) '/' = splitString pattern '/') (name value : Str) :
    (route order r request).2.pathParams.params.lookup name = some value ↔
      template name ∈ splitString pattern '/' ∧ params.params.lookup name = some value := by
  obtain ⟨-, hl, hg⟩ := greedy_of_route hr hroute hdyn
  rw [hpattern, hsegments] at hg
  have hmem : ∀ value, (name, value) ∈ bindings order r.dynamicHandlers
      ((splitString pattern '/').map (piece params)) ↔
        template name ∈ splitString pattern '/' ∧ params.params.lookup name = some value := by
    intro value
    rw [mem_bindings_of_greedy hr.distinct hr.single hg]
    constructor
    · rintro ⟨i, parameter, hkey, hval, -, hp, rfl⟩
      have hin := List.mem_of_getElem? hkey
      obtain ⟨name, rfl⟩ := h.wellBraced parameter hin hp
      rw [List.getElem?_map, hkey, Option.map_some, Option.some_inj] at hval
      obtain ⟨hno, -⟩ | ⟨other, found, heq, hfound, hpiece⟩ := h.piece_cases hin
      · rw [isParameter_template] at hno
        cases hno
      · have hname := congrArg parameterName heq
        rw [parameterName_template, parameterName_template] at hname
        rw [parameterName_template, hname, ← hval, hpiece]
        exact ⟨hname ▸ hin, hfound⟩
    · rintro ⟨hin, hvalue⟩
      obtain ⟨i, hi⟩ := List.getElem?_of_mem hin
      refine ⟨i, template name, hi, ?_, (h.values name value hin hvalue).2.symm,
        isParameter_template name, parameterName_template name⟩
      rw [List.getElem?_map, hi, Option.map_some, piece_template hvalue]
  have hlookup : (route order r request).2.pathParams.params.lookup name = some value ↔
      FirstBound (bindings order r.dynamicHandlers
        ((splitString pattern '/').map (piece params))) name value := by
    rw [← lookup_emplaceAll_empty, route_of_dynamic hl]
    simp only [walk_params, hempty, hsegments]
  rw [hlookup, ← hmem]
  refine ⟨FirstBound.mem, fun hin => ?_⟩
  obtain ⟨first, hfirst⟩ := exists_firstBound hin
  have hsame := ((hmem first).mp hfirst.mem).2
  rw [((hmem value).mp hin).2] at hsame
  rwa [Option.some.inj hsame]

/-- The path of what arrives has the filled segments. -/
theorem splitString_received {base q : Request} {params : Parameters} {data : Option Str}
    (h : Fills base.path params) (hsame : SameMessage (plain base params) q data) :
    splitString q.path '/' = (splitString base.path '/').map (piece params) := by
  rw [← h.splitString_filled, ← formatPath_eq_iff]
  exact hsame.path

def templated : Request :=
  { method := .get, path := "{x}/c".toList, version := .http11,
    headers := Headers.insert {} "host".toList "b".toList }

def minusSeven : Parameters := Parameters.emplace {} "x".toList "-7".toList

theorem relayable_templated : Relayable templated none := by
  have hread : Request.ofRaw "GET /{x}/c HTTP/1.1\r\nHost: b\r\n".toList = .ok templated := rfl
  have htarget : targetOf "GET /{x}/c HTTP/1.1\r\nHost: b\r\n".toList = some "/{x}/c".toList := rfl
  have hendures : Endures "/{x}/c".toList := ⟨by decide, Or.inl (by decide)⟩
  have hnone : templated.headers.headers.lookup Header.contentLength.name = none := rfl
  refine @relayable_of_ofRaw _ _ _ none hread htarget hendures (fun _ => ⟨rfl, rfl⟩)
    (fun value h => ?_) (by decide)
  rw [hnone] at h
  cases h

theorem fills_templated : Fills templated.path minusSeven where
  segments := by decide
  wellBraced := List.forall_mem_cons.mpr ⟨fun _ => ⟨"x".toList, rfl⟩,
    List.forall_mem_singleton.mpr fun h => absurd h (by decide)⟩
  once := by
    rintro last ⟨⟩
    decide
  bound := List.forall_mem_cons.mpr ⟨fun _ => rfl,
    List.forall_mem_singleton.mpr fun h => absurd h (by decide)⟩
  size := by decide
  values := by
    intro name value hname hvalue
    have hx : name = "x".toList := by
      obtain heq | hin := List.mem_cons.mp hname
      · exact (List.append_inj' (List.cons.inj heq).2 rfl).1
      · obtain heq := List.mem_singleton.mp hin
        cases heq
    subst hx
    cases hvalue
    exact ⟨⟨by decide, by decide, by decide, by decide, by decide⟩, by decide⟩

end RoutineHttp.ParameterDelivery
