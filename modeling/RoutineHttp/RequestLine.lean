import RoutineHttp.QueryRouting

/-! The request line with every slice and every index of the constructor checked. The
slices are always in range, the indices need three tokens. -/
namespace RoutineHttp.RequestLine
open Lib QueryRouting

/-- The lambda that splits a parameter at its first equals sign. -/
def slicedParameter (str : Str) : Except Fault (Str × Str) :=
  match find str '=' 0 with
  | none => .ok (str, [])
  | some ind => do return (← substr str 0 ind, ← substr str (ind + 1) str.length)

def emplaceSliced (params : Parameters) (str : Str) : Except Fault Parameters := do
  let (key, value) ← slicedParameter str
  return params.emplace key value

/-- `parse_query_parameters`; the path it stores is overwritten by its caller. -/
def slicedQueryParameters (params : Parameters) (string : Str) : Except Fault (Nat × Parameters) :=
  match find string '?' 0 with
  | none => .ok (0, params)
  | some index => do
    let _ ← substr string 0 index
    let query ← substr string (index + 1) string.length
    return (index, ← (splitString query '&').foldlM emplaceSliced params)

/-- The path for the index of the query mark. -/
def slicedPath (target : Str) (index : Nat) : Except Fault Str :=
  if index = 0 then .ok (formatPath target) else substr target 0 index

/-- The part of the constructor in front of the headers. -/
def parseFirstLine (line : Str) : Except Fault Request := do
  let parts := splitStringLimit line ' ' 3
  let method := methodFromString (← part parts 0)
  let target ← part parts 1
  let (index, queryParams) ← slicedQueryParameters {} target
  let path ← slicedPath target index
  let version := versionFromString (← part parts 2)
  return { method, path, version, queryParams }

def firstLine (rawHttp : Str) : Str := ((getline rawHttp '\n').getD ([], [])).1

/-- Two tokens, one blank behind each, and no further blank after the second one. -/
def ThreeTokens (line : Str) : Prop :=
  ∃ method target c rest, line = method ++ ' ' :: (target ++ ' ' :: c :: rest) ∧
    method ≠ [] ∧ ' ' ∉ method ∧ target ≠ [] ∧ ' ' ∉ target ∧ c ≠ ' '

theorem slicedParameter_eq (str : Str) : slicedParameter str = .ok (splitParameter str) := by
  unfold slicedParameter splitParameter
  cases hf : find str '=' 0 with
  | none => rfl
  | some ind =>
    obtain ⟨-, hlt, -⟩ := find_spec hf
    have htake : ((str.drop (ind + 1)).take str.length) = str.drop (ind + 1) :=
      List.take_of_length_le (by rw [List.length_drop]; omega)
    simp only [substr_of_le (Nat.zero_le _), substr_of_le (Nat.succ_le_of_lt hlt), List.drop_zero,
      htake, bind, Except.bind, pure, Except.pure]

/-- No slice of the query parser is out of range. -/
theorem slicedQueryParameters_eq (params : Parameters) (string : Str) :
    slicedQueryParameters params string = .ok (parseQueryParameters params string) := by
  have hfold : ∀ (tokens : List Str) (params : Parameters), tokens.foldlM emplaceSliced params =
      .ok (tokens.foldl (fun params str => params.emplace (splitParameter str).1
        (splitParameter str).2) params) := by
    intro tokens
    induction tokens with
    | nil => exact fun params => rfl
    | cons token tokens ih =>
      intro params
      rw [List.foldlM_cons, emplaceSliced, slicedParameter_eq]
      exact ih _
  unfold slicedQueryParameters parseQueryParameters
  cases hf : find string '?' 0 with
  | none => rfl
  | some index =>
    obtain ⟨-, hlt, -⟩ := find_spec hf
    have htake : ((string.drop (index + 1)).take string.length) = string.drop (index + 1) :=
      List.take_of_length_le (by rw [List.length_drop]; omega)
    simp only [substr_of_le (Nat.zero_le _), substr_of_le (Nat.succ_le_of_lt hlt), htake, bind,
      Except.bind]
    rw [hfold]
    rfl

theorem slicedPath_eq (target : Str) (index : Nat) :
    slicedPath target index = .ok (if index = 0 then formatPath target else target.take index) := by
  rw [slicedPath, substr_of_le (Nat.zero_le _), List.drop_zero]
  split <;> rfl

/-- The constructor is its first line, then the headers. -/
theorem ofRaw_eq (rawHttp : Str) : Request.ofRaw rawHttp = do
    let request ← parseFirstLine (firstLine rawHttp)
    let headers ← Headers.initFromStream {} ((getline rawHttp '\n').getD ([], [])).2
    return { request with headers } := by
  unfold Request.ofRaw parseFirstLine firstLine
  simp only [bind, Except.bind, pure, Except.pure, slicedQueryParameters_eq, slicedPath_eq]
  cases part (splitStringLimit ((getline rawHttp '\n').getD ([], [])).1 ' ' 3) 0 with
  | error fault => rfl
  | ok method =>
    cases part (splitStringLimit ((getline rawHttp '\n').getD ([], [])).1 ' ' 3) 1 with
    | error fault => rfl
    | ok target =>
      cases part (splitStringLimit ((getline rawHttp '\n').getD ([], [])).1 ' ' 3) 2 <;> rfl

theorem part_ok_iff {parts : List Str} {i : Nat} :
    (∃ token, part parts i = .ok token) ↔ i < parts.length := by
  unfold part
  constructor
  · rintro ⟨token, h⟩
    split at h
    · next hget => exact (List.getElem?_eq_some_iff.mp hget).1
    · cases h
  · intro h
    rw [List.getElem?_eq_getElem h]
    exact ⟨_, rfl⟩

/-- Missing tokens are the only way for the request line to fail. -/
theorem parseFirstLine_ok_iff (line : Str) : (∃ request, parseFirstLine line = .ok request) ↔
    2 < (splitStringLimit line ' ' 3).length := by
  have hpart := fun i => @part_ok_iff (splitStringLimit line ' ' 3) i
  constructor
  · rintro ⟨request, h⟩
    obtain ⟨method, -, h⟩ := bind_eq_ok h
    obtain ⟨target, -, h⟩ := bind_eq_ok h
    obtain ⟨query, -, h⟩ := bind_eq_ok h
    obtain ⟨path, -, h⟩ := bind_eq_ok h
    obtain ⟨version, hversion, -⟩ := bind_eq_ok h
    exact (hpart 2).mp ⟨version, hversion⟩
  · intro h
    obtain ⟨method, h0⟩ := (hpart 0).mpr (by omega)
    obtain ⟨target, h1⟩ := (hpart 1).mpr (by omega)
    obtain ⟨version, h2⟩ := (hpart 2).mpr h
    simp only [parseFirstLine, slicedQueryParameters_eq, slicedPath_eq, h0, h1, h2, bind, Except.bind,
      pure, Except.pure]
    exact ⟨_, rfl⟩

/-- When three reads give three tokens, none of them was empty. -/
theorem three_records {line : Str} (h : 2 < (splitStringLimit line ' ' 3).length) :
    ∃ method target version rest, records ' ' line = method :: target :: version :: rest ∧
      method ≠ [] ∧ target ≠ [] ∧ version ≠ [] := by
  have htake : ((records ' ' line).take 3).length ≤ 3 := List.length_take_le 3 _
  have hfilter := List.length_filter_le (fun token : Str => !token.isEmpty) ((records ' ' line).take 3)
  have hall := List.length_filter_eq_length_iff.mp
    (Nat.le_antisymm hfilter (htake.trans (Nat.succ_le_of_lt h)))
  have hthree : 3 ≤ (records ' ' line).length :=
    (Nat.succ_le_of_lt h).trans (hfilter.trans (List.length_take_le' 3 _))
  obtain ⟨method, target, version, rest, hr⟩ : ∃ method target version rest,
      records ' ' line = method :: target :: version :: rest := by
    match records ' ' line, hthree with
    | method :: target :: version :: rest, _ => exact ⟨method, target, version, rest, rfl⟩
  rw [hr] at hall
  have hne : ∀ token : Str, (!token.isEmpty) = true → token ≠ [] := by
    rintro token hb rfl
    cases hb
  exact ⟨method, target, version, rest, hr, hne _ (hall method (by simp)),
    hne _ (hall target (by simp)), hne _ (hall version (by simp))⟩

/-- Three tokens are found when none of the first three reads is empty. -/
theorem two_lt_tokens_iff (line : Str) :
    2 < (splitStringLimit line ' ' 3).length ↔ ThreeTokens line := by
  constructor
  · intro h
    obtain ⟨method, target, version, rest, hr, hmne, htne, hvne⟩ := three_records h
    have hmem : ∀ token ∈ [method, target, version], ' ' ∉ token := fun token ht =>
      not_mem_of_mem_records (by rw [hr]; exact List.mem_append_left rest ht)
    obtain ⟨-, hnil⟩ | ⟨s, rfl, hs⟩ := records_eq_cons hr
    · cases hnil
    obtain ⟨-, hnil⟩ | ⟨t, rfl, ht⟩ := records_eq_cons hs
    · cases hnil
    obtain ⟨c, version', rfl⟩ := List.exists_cons_of_ne_nil hvne
    have hversion : ' ' ∉ c :: version' := hmem _ (by simp)
    have hc : c ≠ ' ' := (List.ne_and_not_mem_of_not_mem_cons hversion).1.symm
    obtain ⟨rfl, -⟩ | ⟨u, rfl, -⟩ := records_eq_cons ht
    · exact ⟨method, target, c, version', rfl, hmne, hmem _ (by simp), htne, hmem _ (by simp), hc⟩
    · exact ⟨method, target, c, version' ++ ' ' :: u, by simp, hmne, hmem _ (by simp), htne,
        hmem _ (by simp), hc⟩
  · rintro ⟨method, target, c, rest, rfl, hmne, hm, htne, ht, hc⟩
    rw [splitStringLimit_line hm ht htne, if_neg hmne, records_cons_ne hc]
    cases records ' ' rest <;> simp

/-- The first line is taken apart without a fault exactly when it has three tokens. -/
theorem request_line_safe_iff (rawHttp : Str) :
    (∃ request, parseFirstLine (firstLine rawHttp) = .ok request) ↔
      ThreeTokens (firstLine rawHttp) :=
  (parseFirstLine_ok_iff _).trans (two_lt_tokens_iff _)

/-- A head with a method only: the second token is not there. -/
theorem missing_target_read :
    parseFirstLine (firstLine "GET\r\nHost: a\r\n".toList) = .error .undefinedBehaviour ∧
      ¬ ∃ request, parseFirstLine (firstLine "GET\r\nHost: a\r\n".toList) = .ok request := by
  have h : parseFirstLine (firstLine "GET\r\nHost: a\r\n".toList) =
      .error .undefinedBehaviour := rfl
  refine ⟨h, ?_⟩
  rintro ⟨request, hr⟩
  cases h.symm.trans hr

end RoutineHttp.RequestLine
