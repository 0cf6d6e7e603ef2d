import RoutineHttp.PathBindings
import RoutineHttp.RequestFraming

/-! The path a request with path parameters is sent to. Its template is expanded segment by
segment; separators go by the text of the segments, values by their first character. -/
namespace RoutineHttp.PathTemplate
open Lib PathBindings

/-- A segment {name} stands for the value of the name, any other one for itself. -/
def Expands (params : Parameters) (segment out : Str) : Prop :=
  (∃ name, segment = template name ∧ params.params.lookup name = some out) ∨
    (¬ ∃ name, segment = template name) ∧ out = segment

/-- The path is the join of the expanded segments, and the path parameters are not touched. -/
def Expanded (r : Request) : Prop :=
  ∃ outs, List.Forall₂ (Expands r.pathParams) (splitString r.path '/') outs ∧
    r.pathText = .ok (['/'].intercalate outs, r.pathParams)

/-- Segments that begin with a brace are of the form {name}. -/
def WellBraced (segments : List Str) : Prop :=
  ∀ segment ∈ segments, isParameter segment = true → ∃ name, segment = template name

/-- Every name looked up is bound. -/
def AllBound (params : Parameters) (segments : List Str) : Prop :=
  ∀ segment ∈ segments, isParameter segment = true →
    params.contains (parameterName segment) = true

/-- No segment before the last one has its text. -/
def LastOnce (segments : List Str) : Prop :=
  ∀ last, segments.getLast? = some last → last ∉ segments.dropLast

def SameNames (params params' : Parameters) : Prop :=
  ∀ name, params.contains name = params'.contains name

/-- What the loop writes for a segment, its separator apart. -/
def piece (params : Parameters) (segment : Str) : Str :=
  if isParameter segment then (params.params.lookup (parameterName segment)).getD [] else segment

theorem getOrCreate_of_contains {params : Parameters} {name : Str}
    (h : params.contains name = true) :
    params.getOrCreate name = ((params.params.lookup name).getD [], params) := by
  obtain ⟨value, hvalue⟩ := mem_iff_exists_lookup.mp (of_decide_eq_true h)
  simp only [Parameters.getOrCreate, getOrCreate, hvalue, Option.getD_some]

/-- With all names bound the loop changes no parameter. -/
theorem templateText_of_bound {last : Option Str} {params : Parameters} {segments : List Str}
    (h : AllBound params segments) : Request.templateText last params segments =
      (segments.flatMap fun segment => piece params segment ++
        if some segment = last then [] else ['/'], params) := by
  induction segments with
  | nil => rfl
  | cons segment segments ih =>
    have hrest := ih fun other hother => h other (List.mem_cons_of_mem _ hother)
    have hfound : (if isParameter segment then params.getOrCreate (parameterName segment)
        else (segment, params)) = (piece params segment, params) := by
      unfold piece
      by_cases hp : isParameter segment = true
      · rw [if_pos hp, if_pos hp, getOrCreate_of_contains (h segment (by simp) hp)]
      · rw [if_neg hp, if_neg hp]
    rw [Request.templateText]
    simp only [hfound, hrest, List.flatMap_cons]

/-- Every name looked up is there afterwards. -/
theorem mem_templateText {last : Option Str} {params : Parameters} {segments : List Str}
    {name : Str} : name ∈ (Request.templateText last params segments).2.params ↔
      name ∈ params.params ∨
        ∃ segment ∈ segments, isParameter segment = true ∧ parameterName segment = name := by
  induction segments generalizing params with
  | nil => simp [Request.templateText]
  | cons segment segments ih =>
    rw [Request.templateText]
    simp only [ih, List.exists_mem_cons_iff, ← or_assoc]
    refine or_congr_left ?_
    by_cases hp : isParameter segment = true
    · rw [if_pos hp, and_iff_right hp, or_comm, eq_comm]
      exact mem_getOrCreate
    · simp [hp]

theorem pathText_of_size {r : Request} (h : r.pathParams.size > 0) : r.pathText =
    .ok (Request.templateText (splitString r.path '/').getLast? r.pathParams
      (splitString r.path '/')) := by
  rw [Request.pathText, if_pos h]

/-- The parameters stay as they are only when every name is bound. -/
theorem allBound_of_expanded {r : Request} (hsize : r.pathParams.size > 0) (h : Expanded r) :
    AllBound r.pathParams (splitString r.path '/') := by
  obtain ⟨outs, -, htext⟩ := h
  rw [pathText_of_size hsize] at htext
  intro segment hsegment hp
  have hmem : parameterName segment ∈ (Request.templateText (splitString r.path '/').getLast?
      r.pathParams (splitString r.path '/')).2.params :=
    mem_templateText.mpr (Or.inr ⟨segment, hsegment, hp, rfl⟩)
  rw [congrArg Prod.snd (Except.ok.inj htext)] at hmem
  exact decide_eq_true hmem

theorem expanded_iff_of_bound {r : Request} (hsize : r.pathParams.size > 0)
    (hbound : AllBound r.pathParams (splitString r.path '/')) : Expanded r ↔
      ∃ outs, List.Forall₂ (Expands r.pathParams) (splitString r.path '/') outs ∧
        ((splitString r.path '/').flatMap fun segment => piece r.pathParams segment ++
          if some segment = (splitString r.path '/').getLast? then [] else ['/']) =
            ['/'].intercalate outs := by
  simp only [Expanded, pathText_of_size hsize, templateText_of_bound hbound, Except.ok.injEq,
    Prod.mk.injEq, and_true]

/-- A segment that is no malformed template expands to what the loop writes for it. -/
theorem expands_iff {params : Parameters} {segment out : Str}
    (hform : isParameter segment = true → ∃ name, segment = template name)
    (hbound : isParameter segment = true → params.contains (parameterName segment) = true) :
    Expands params segment out ↔ out = piece params segment := by
  unfold piece
  by_cases hp : isParameter segment = true
  · obtain ⟨name, rfl⟩ := hform hp
    have hcontains := hbound hp
    rw [parameterName_template] at hcontains
    obtain ⟨value, hvalue⟩ := mem_iff_exists_lookup.mp (of_decide_eq_true hcontains)
    rw [if_pos hp, parameterName_template, hvalue, Option.getD_some]
    constructor
    · rintro (⟨other, heq, hout⟩ | ⟨hno, -⟩)
      · have hname := congrArg parameterName heq
        rw [parameterName_template, parameterName_template] at hname
        rw [← hname, hvalue] at hout
        exact (Option.some.inj hout).symm
      · exact absurd ⟨name, rfl⟩ hno
    · rintro rfl
      exact Or.inl ⟨name, rfl, hvalue⟩
  · have hno : ¬ ∃ name, segment = template name := by
      rintro ⟨name, rfl⟩
      exact hp rfl
    rw [if_neg hp]
    constructor
    · rintro (⟨name, heq, -⟩ | ⟨-, hout⟩)
      · exact absurd ⟨name, heq⟩ hno
      · exact hout
    · exact fun hout => Or.inr ⟨hno, hout⟩

theorem forall₂_expands_iff {params : Parameters} {segments outs : List Str}
    (hform : WellBraced segments) (hbound : AllBound params segments) :
    List.Forall₂ (Expands params) segments outs ↔ outs = segments.map (piece params) := by
  induction segments generalizing outs with
  | nil => simp
  | cons segment segments ih =>
    have hfirst := fun out => @expands_iff params segment out (hform segment (by simp))
      (hbound segment (by simp))
    have hrest := fun outs => @ih outs (fun s hs => hform s (List.mem_cons_of_mem _ hs))
      (fun s hs => hbound s (List.mem_cons_of_mem _ hs))
    cases outs with
    | nil => simp
    | cons out outs =>
      rw [List.forall₂_cons, hfirst, hrest, List.map_cons, List.cons.injEq]

/-- Templates without malformed segments are expanded exactly when all names are bound and the
text of the last segment occurs nowhere before. -/
theorem expanded_iff_of_wellBraced {r : Request} (hsize : r.pathParams.size > 0)
    (hform : WellBraced (splitString r.path '/')) : Expanded r ↔
      AllBound r.pathParams (splitString r.path '/') ∧ LastOnce (splitString r.path '/') := by
  have hseparated : AllBound r.pathParams (splitString r.path '/') →
      (Expanded r ↔ LastOnce (splitString r.path '/')) := by
    intro hbound
    rw [expanded_iff_of_bound hsize hbound]
    simp only [forall₂_expands_iff hform hbound, exists_eq_left]
    exact separated_iff '/' (piece r.pathParams) (splitString r.path '/')
  constructor
  · intro h
    have hbound := allBound_of_expanded hsize h
    exact ⟨hbound, (hseparated hbound).mp h⟩
  · exact fun ⟨hbound, honce⟩ => (hseparated hbound).mpr honce

/-- The names bound, with one value for all of them. -/
def withValue (params : Parameters) (value : Str) : Parameters :=
  ⟨emplaceAll ∅ (params.params.keys.map fun name => (name, value))⟩

theorem sameNames_withValue (params : Parameters) (value : Str) :
    SameNames (withValue params value) params := by
  intro name
  refine decide_eq_decide.mpr ?_
  rw [withValue, mem_emplaceAll]
  simp [AList.mem_keys]

theorem lookup_withValue {params : Parameters} {value name : Str}
    (h : (withValue params value).contains name = true) :
    (withValue params value).params.lookup name = some value := by
  obtain ⟨found, hfound⟩ := mem_iff_exists_lookup.mp (of_decide_eq_true h)
  obtain ⟨other, -, heq⟩ := List.mem_map.mp (lookup_emplaceAll_empty.mp hfound).mem
  rw [hfound, (Prod.mk.inj heq).2]

theorem size_pos_iff {params : Parameters} :
    params.size > 0 ↔ ∃ name, params.contains name = true := by
  simp only [Parameters.size, Parameters.contains, decide_eq_true_eq, gt_iff_lt,
    List.length_pos_iff_exists_mem, mem_iff_exists_entry]
  constructor
  · rintro ⟨e, he⟩
    exact ⟨e.1, e.2, he⟩
  · rintro ⟨name, value, he⟩
    exact ⟨_, he⟩

theorem size_pos_of_sameNames {params params' : Parameters} (h : SameNames params params')
    (hsize : params'.size > 0) : params.size > 0 := by
  obtain ⟨name, hname⟩ := size_pos_iff.mp hsize
  exact size_pos_iff.mpr ⟨name, (h name).trans hname⟩

/-- The slashes of the expanded segments against those of what the loop writes, when every
value consists of slashes. -/
theorem count_outs_le {params : Parameters} {n : Nat} {segments outs : List Str}
    (hclean : ∀ segment ∈ segments, '/' ∉ segment)
    (hvalues : ∀ segment ∈ segments, isParameter segment = true →
      params.params.lookup (parameterName segment) = some (List.replicate n '/'))
    (h : List.Forall₂ (Expands params) segments outs) :
    outs.flatten.count '/' ≤ (segments.flatMap (piece params)).count '/' ∧
      ∀ segment ∈ segments, isParameter segment = true → (¬ ∃ name, segment = template name) →
        outs.flatten.count '/' + n ≤ (segments.flatMap (piece params)).count '/' := by
  induction h with
  | nil => exact ⟨Nat.le_refl _, fun segment hsegment => absurd hsegment List.not_mem_nil⟩
  | @cons segment out segments outs hfirst _ ih =>
    obtain ⟨hle, hmore⟩ := ih (fun s hs => hclean s (List.mem_cons_of_mem _ hs))
      (fun s hs => hvalues s (List.mem_cons_of_mem _ hs))
    have hnone := List.count_eq_zero.mpr (hclean segment (by simp))
    rw [List.flatten_cons, List.flatMap_cons, List.count_append, List.count_append]
    have hhead : out.count '/' ≤ (piece params segment).count '/' := by
      obtain ⟨name, rfl, hout⟩ | ⟨-, rfl⟩ := hfirst
      · rw [piece, if_pos (isParameter_template name), parameterName_template, hout]
        exact Nat.le_refl _
      · omega
    refine ⟨Nat.add_le_add hhead hle, fun other hother hp hno => ?_⟩
    obtain heq | hother := List.mem_cons.mp hother
    · rw [heq] at hp hno
      obtain ⟨name, he, -⟩ | ⟨-, rfl⟩ := hfirst
      · exact absurd ⟨name, he⟩ hno
      · have hvalue : (piece params out).count '/' = n := by
          rw [piece, if_pos hp, hvalues out (by simp) hp, Option.getD_some,
            List.count_replicate_self]
        omega
    · have := hmore other hother hp hno
      omega

/-- When a template is expanded whatever the values are, no segment is malformed. -/
theorem wellBraced_of_expanded {r : Request} (hsize : r.pathParams.size > 0)
    (h : ∀ params, SameNames params r.pathParams → Expanded { r with pathParams := params }) :
    WellBraced (splitString r.path '/') := by
  intro segment hsegment hp
  by_contra hno
  -- as many slashes for a value as there are segments
  obtain ⟨params, hparams⟩ : ∃ params, params =
      withValue r.pathParams (List.replicate (splitString r.path '/').length '/') := ⟨_, rfl⟩
  have hsame : SameNames params r.pathParams := hparams ▸ sameNames_withValue _ _
  have hsize' := size_pos_of_sameNames hsame hsize
  have hexpanded := h params hsame
  have hbound := allBound_of_expanded hsize' hexpanded
  obtain ⟨outs, hforall, htext⟩ := (expanded_iff_of_bound hsize' hbound).mp hexpanded
  have hclean : ∀ segment ∈ splitString r.path '/', '/' ∉ segment := by
    intro other hother
    rw [splitString_eq_tokens] at hother
    exact (tokens_segments '/' r.path other hother).2
  have hvalues : ∀ segment ∈ splitString r.path '/', isParameter segment = true →
      params.params.lookup (parameterName segment) =
        some (List.replicate (splitString r.path '/').length '/') := by
    intro other hother hpo
    have hcontains := hbound other hother hpo
    rw [hparams] at hcontains ⊢
    exact lookup_withValue hcontains
  have hmore := (count_outs_le hclean hvalues hforall).2 segment hsegment hp hno
  have hlength : (splitString r.path '/').length = outs.length := hforall.length_eq
  have hne : outs ≠ [] := by
    rintro rfl
    rw [List.forall₂_nil_right_iff] at hforall
    rw [hforall] at hsegment
    cases hsegment
  have hcount := congrArg (List.count '/') htext
  have hjoin : (['/'].intercalate outs).count '/' + 1 = outs.flatten.count '/' + outs.length :=
    count_intercalate '/' hne
  have hwritten : ((splitString r.path '/').flatMap (piece params)).count '/' ≤
      (['/'].intercalate outs).count '/' := by
    rw [← hcount]
    exact (List.Sublist.flatMap_right _ fun other _ => List.sublist_append_left _ _).count_le '/'
  omega

/-- A request with path parameters is sent to its expanded path exactly when all names are
bound and the last segment's text occurs nowhere before, as long as no segment is malformed;
whatever the values are, exactly when no segment is malformed either. -/
theorem expanded_iff (r : Request) (hsize : r.pathParams.size > 0) :
    (WellBraced (splitString r.path '/') → (Expanded r ↔
      AllBound r.pathParams (splitString r.path '/') ∧ LastOnce (splitString r.path '/'))) ∧
    ((∀ params, SameNames params r.pathParams → Expanded { r with pathParams := params }) ↔
      WellBraced (splitString r.path '/') ∧ AllBound r.pathParams (splitString r.path '/') ∧
        LastOnce (splitString r.path '/')) := by
  refine ⟨expanded_iff_of_wellBraced hsize, ?_⟩
  constructor
  · intro h
    have hform := wellBraced_of_expanded hsize h
    exact ⟨hform, (expanded_iff_of_wellBraced hsize hform).mp (h r.pathParams fun _ => rfl)⟩
  · rintro ⟨hform, hbound, honce⟩ params hsame
    have hsize' := size_pos_of_sameNames hsame hsize
    have hbound' : AllBound params (splitString r.path '/') := fun segment hsegment hp =>
      (hsame _).trans (hbound segment hsegment hp)
    exact (expanded_iff_of_wellBraced (r := { r with pathParams := params }) hsize' hform).mpr
      ⟨hbound', honce⟩

/-- What is sent of an expanded request: the method, and its path behind one slash. -/
theorem prepareRequest_of_expanded {r r' : Request} {queryOrder order : IterationOrder HeaderField}
    {text : Str} (h : Expanded r) (hp : r.prepareRequest queryOrder order = .ok (text, r')) :
    r'.pathParams = r.pathParams ∧
      ∃ outs, List.Forall₂ (Expands r.pathParams) (splitString r.path '/') outs ∧
        r.method.name ++ " /".toList ++ ['/'].intercalate outs <+: text := by
  obtain ⟨outs, hforall, htext⟩ := h
  obtain ⟨found, hfound, rfl⟩ := RequestFraming.prepareRequest_ok hp
  rw [htext] at hfound
  cases hfound
  refine ⟨rfl, outs, hforall, ?_⟩
  unfold Request.prepareRequest at hp
  simp only [htext, bind, Except.bind] at hp
  split at hp
  · cases hp
  · cases hp
    simp only [Request.requestLine, List.append_assoc]
    exact List.prefix_append_right_inj _ |>.mpr (List.prefix_append_right_inj _ |>.mpr
      (List.prefix_append _ _))

/-- A request to a template, with one parameter bound. -/
def templateRequest (path : Str) : Request :=
  { method := .get, path, version := .http11,
    pathParams := Parameters.emplace {} "x".toList "1".toList }

theorem wellBraced_sample {last : Str} (h : isParameter last = false) :
    WellBraced ["a".toList, "{x}".toList, last] := by
  refine List.forall_mem_cons.mpr ⟨nofun, List.forall_mem_cons.mpr ⟨fun _ => ⟨"x".toList, rfl⟩, ?_⟩⟩
  exact List.forall_mem_singleton.mpr fun hp => by rw [h] at hp; cases hp

/-- The first segment is spelled like the last one and loses its separator. -/
theorem repeated_segment_joined :
    (templateRequest "a/{x}/a".toList).pathParams.size = 1 ∧
    (templateRequest "a/{x}/a".toList).pathText =
      .ok ("a1/a".toList, (templateRequest "a/{x}/a".toList).pathParams) ∧
    ¬ Expanded (templateRequest "a/{x}/a".toList) := by
  have htext : (templateRequest "a/{x}/a".toList).pathText =
      .ok ("a1/a".toList, (templateRequest "a/{x}/a".toList).pathParams) := rfl
  refine ⟨rfl, htext, fun h => ?_⟩
  have hform : WellBraced (splitString "a/{x}/a".toList '/') := wellBraced_sample rfl
  have honce := ((expanded_iff_of_wellBraced (r := templateRequest "a/{x}/a".toList) (by decide)
    hform).mp h).2
  exact honce "a".toList rfl (by decide)

theorem expanded_iff_plain : Expanded (templateRequest "a/{x}/b".toList) := by
  have hform : WellBraced (splitString "a/{x}/b".toList '/') := wellBraced_sample rfl
  refine ((expanded_iff (templateRequest "a/{x}/b".toList) (by decide)).1 hform).mpr ⟨?_, ?_⟩
  · refine List.forall_mem_cons.mpr ⟨nofun, List.forall_mem_cons.mpr ⟨fun _ => rfl, ?_⟩⟩
    exact List.forall_mem_singleton.mpr nofun
  · rintro last ⟨⟩
    decide

end RoutineHttp.PathTemplate
