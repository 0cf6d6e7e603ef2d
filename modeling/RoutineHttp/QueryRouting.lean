import RoutineHttp.Routing

/-! Routing of a target with and without a query. The path in front of a query keeps
its spelling, and static handlers are looked up by spelling. -/
namespace RoutineHttp.QueryRouting
open RouteHandler

/-- A raw request: request line, then the header block. -/
def rawRequest (method target version headerBlock : Str) : Str :=
  method ++ ' ' :: (target ++ ' ' :: (version ++ crlf ++ headerBlock))

/-- The two requests have the normal form of `p` as their path, and every router sends
them to one registration with the same bindings. -/
def QueryIgnored (p : Str) (withQuery plain : Request) : Prop :=
  withQuery.path = formatPath p ∧ plain.path = formatPath p ∧ '?' ∉ formatPath p ∧
  ∀ (α : Type) (router : RouteHandler α) (order : NodeOrder α),
    (route order router withQuery).1 = (route order router plain).1 ∧
    (route order router withQuery).2.pathParams = (route order router plain).2.pathParams

/-- With a space-free method and target the splitter hands them out as they are, except
that an empty method is dropped and its read still counts. -/
theorem splitStringLimit_line {method target : Str} (hm : ' ' ∉ method) (ht : ' ' ∉ target)
    (htarget : target ≠ []) (rest : Str) :
    splitStringLimit (method ++ ' ' :: (target ++ ' ' :: rest)) ' ' 3 =
      (if method = [] then [] else [method]) ++ target ::
        ((Lib.records ' ' rest).take 1).filter fun token => !token.isEmpty := by
  simp only [splitStringLimit, getlines, Lib.records_append hm, Lib.records_append ht]
  cases method <;> cases target <;> simp_all

theorem length_splitStringLimit_le (s : Str) (delim : Char) (limit : Nat) :
    (splitStringLimit s delim limit).length ≤ s.count delim + 1 := by
  have htake := (List.take_sublist limit (Lib.records delim s)).length_le
  have hrecords := Lib.length_records_le delim s
  have hfilter := List.length_filter_le (fun token : Str => !token.isEmpty)
    ((Lib.records delim s).take limit)
  exact hfilter.trans (htake.trans hrecords)

theorem count_space_line {method target : Str} (hm : ' ' ∉ method) (ht : ' ' ∉ target) :
    (method ++ ' ' :: target).count ' ' = 1 := by
  simp [List.count_append, List.count_eq_zero.mpr hm, List.count_eq_zero.mpr ht]

/-- The first line of an accepted raw request reaches beyond its target: a line feed in
the method or the target leaves too few tokens. -/
theorem second_token {method target tail token : Str} (hm : ' ' ∉ method)
    (ht : ' ' ∉ target) (htarget : target ≠ []) (line : Str)
    (hline : line = (method ++ ' ' :: (target ++ ' ' :: tail)).takeWhile fun c => decide (c ≠ '\n'))
    (h2 : (splitStringLimit line ' ' 3)[2]? = some token) :
    (splitStringLimit line ' ' 3)[1]? = some target := by
  have hlen : 2 < (splitStringLimit line ' ' 3).length := (List.getElem?_eq_some_iff.mp h2).1
  have hcut : method ++ ' ' :: (target ++ ' ' :: tail) = (method ++ ' ' :: target) ++ ' ' :: tail := by
    simp
  rw [hcut, List.takeWhile_append] at hline
  split at hline
  · have hline' : line = method ++ ' ' :: (target ++ ' ' ::
        tail.takeWhile fun c => decide (c ≠ '\n')) := by simp [hline]
    rw [hline', splitStringLimit_line hm ht htarget] at hlen ⊢
    cases method with
    | nil =>
      have hrest := List.length_filter_le (fun token : Str => !token.isEmpty)
        ((Lib.records ' ' (tail.takeWhile fun c => decide (c ≠ '\n'))).take 1)
      have htake := List.length_take_le 1
        (Lib.records ' ' (tail.takeWhile fun c => decide (c ≠ '\n')))
      simp only [if_true, List.nil_append, List.length_cons] at hlen
      omega
    | cons c method => rfl
  · have hsub := (List.takeWhile_sublist (l := method ++ ' ' :: target)
      fun c => decide (c ≠ '\n')).count_le ' '
    rw [count_space_line hm ht, ← hline] at hsub
    have := length_splitStringLimit_le line ' ' 3
    omega

theorem path_of_ofRaw {method target tail : Str} {r : Request} (hm : ' ' ∉ method)
    (ht : ' ' ∉ target) (htarget : target ≠ [])
    (h : Request.ofRaw (method ++ ' ' :: (target ++ ' ' :: tail)) = .ok r) :
    r.path = (if (parseQueryParameters {} target).1 = 0 then formatPath target
      else target.take (parseQueryParameters {} target).1) ∧ r.pathParams = {} := by
  obtain ⟨m, t, v, headers, -, h1, h2, -, rfl⟩ := Request.ofRaw_ok h
  have hne : method ++ ' ' :: (target ++ ' ' :: tail) ≠ [] := by simp
  have hline : ((getline (method ++ ' ' :: (target ++ ' ' :: tail)) '\n').getD ([], [])).1 =
      (method ++ ' ' :: (target ++ ' ' :: tail)).takeWhile fun c => decide (c ≠ '\n') := by
    rw [getline, Lib.readUntil_eq hne]
    rfl
  have htoken := second_token hm ht htarget _ hline h2
  rw [htoken] at h1
  cases h1
  exact ⟨rfl, rfl⟩

/-- A request with a query is routed like the plain one exactly when the target has no
slash at either end and none doubled, which no target starting with a slash satisfies. -/
theorem query_ignored_iff {method version headerBlock p q : Str} {withQuery plain : Request}
    (hm : ' ' ∉ method) (hp : p ≠ []) (hmark : '?' ∉ p) (hps : ' ' ∉ p) (hqs : ' ' ∉ q)
    (hquery : Request.ofRaw (rawRequest method (p ++ '?' :: q) version headerBlock) = .ok withQuery)
    (hplain : Request.ofRaw (rawRequest method p version headerBlock) = .ok plain) :
    QueryIgnored p withQuery plain ↔ Lib.Normal '/' p := by
  have hqt : ' ' ∉ p ++ '?' :: q := by simp [hps, hqs]
  obtain ⟨hpath, hparams⟩ := path_of_ofRaw hm hqt (by simp) hquery
  obtain ⟨hpath', hparams'⟩ := path_of_ofRaw hm hps hp hplain
  have hlen : p.length ≠ 0 := by simpa using hp
  simp only [parseQueryParameters, find_append hmark, if_neg hlen, List.take_left] at hpath
  simp only [parseQueryParameters, find_eq_none hmark, if_true] at hpath'
  rw [← formatPath_eq_self_iff]
  constructor
  · rintro ⟨h, -⟩
    rw [← h, hpath]
  · intro h
    refine ⟨by rw [hpath, h], hpath', fun hc => hmark (mem_of_mem_formatPath hc (by decide)), ?_⟩
    intro α router order
    have hsame : withQuery.path = plain.path := by rw [hpath, hpath', h]
    unfold route
    rw [hsame, hparams, hparams']
    cases router.staticHandlers.lookup plain.path with
    | some creator => exact ⟨rfl, by rw [hparams, hparams']⟩
    | none => exact ⟨rfl, rfl⟩

def staticRouter : RouteHandler Nat :=
  (addHandler (Lib.IterationOrder.stored _) {} "/api/echo".toList 1).1

/-- A query makes a static handler unreachable. -/
theorem query_hides_static_handler :
    ∃ withQuery plain,
      Request.ofRaw (rawRequest "GET".toList ("/api/echo".toList ++ '?' :: "x=1".toList)
        "HTTP/1.1".toList crlf) = .ok withQuery ∧
      Request.ofRaw (rawRequest "GET".toList "/api/echo".toList "HTTP/1.1".toList crlf) =
        .ok plain ∧
      (route (Lib.IterationOrder.stored _) staticRouter plain).1 = some 1 ∧
      (route (Lib.IterationOrder.stored _) staticRouter withQuery).1 = none ∧
      ¬ QueryIgnored "/api/echo".toList withQuery plain := by
  refine ⟨_, _, rfl, rfl, rfl, rfl, fun h => ?_⟩
  exact absurd h.1 (by decide)

theorem query_ignored_iff_relative : ∃ withQuery plain,
    QueryIgnored "api/echo".toList withQuery plain := by
  refine ⟨_, _, (@query_ignored_iff "GET".toList "HTTP/1.1".toList crlf "api/echo".toList
    "x=1".toList _ _ (by decide) (by decide) (by decide) (by decide) (by decide) rfl rfl).mpr ?_⟩
  exact ⟨by decide, by decide, by decide⟩

end RoutineHttp.QueryRouting
