import RoutineHttp.ParameterFields
import RoutineHttp.RequestRelay

/-! Query parameters from a client to a handler. A client writes them behind the path, a server
reads them in its target; what is not escaped on the way decides which of them arrive. -/
namespace RoutineHttp.QueryDelivery
open Lib HttpSession RouteHandler RequestRoundTrip QueryRoundTrip RequestRelay ParameterFields
open Segmentation

/-- Parameters that a query can tell apart. -/
def Separable (params : Parameters) : Prop :=
  ∀ field ∈ params.params.entries, '=' ∉ field.1 ∧ '&' ∉ parameterText field

/-- Parameters without blanks and line feeds, the ends of a target. -/
def Unbroken (params : Parameters) : Prop :=
  ∀ field ∈ params.params.entries, (' ' ∉ field.1 ∧ ' ' ∉ field.2) ∧ '\n' ∉ field.1 ∧ '\n' ∉ field.2

section
variable {base : Request} {target : Str} {found : Str × Parameters} {params : Parameters}

/-- Such parameters leave the target in one piece. -/
theorem unbroken_sentTarget (hfresh : Fresh target { base with body := none })
    (hf : base.pathText = .ok found) (h : Unbroken params)
    (queryOrder : IterationOrder HeaderField) :
    ' ' ∉ sentTarget { base with queryParams := params } found.1 queryOrder ∧
      '\n' ∉ sentTarget { base with queryParams := params } found.1 queryOrder := by
  have hpath := (hfresh.written hf).2
  have hsent : ∀ c, c ∉ target → c ≠ '/' → c ≠ '?' ∧ c ≠ '&' ∧ c ≠ '=' →
      (∀ field ∈ params.params.entries, c ∉ field.1 ∧ c ∉ field.2) →
      c ∉ sentTarget { base with queryParams := params } found.1 queryOrder := by
    intro c hc hslash hne hparams
    have hquery := sentQuery_notMem (r := { base with queryParams := params }) hparams hne queryOrder
    simp [sentTarget, hslash, hpath c (notMem_targetPath hc hslash) hslash, hquery]
  exact ⟨hsent ' ' hfresh.space (by decide) (by decide) fun field hfield => (h field hfield).1,
    hsent '\n' hfresh.line (by decide) (by decide) fun field hfield => (h field hfield).2⟩

end

/-- The query that is sent has just its parameters exactly when it can tell them apart. -/
theorem lookup_sentQuery_iff {path : Str} (hpath : '?' ∉ path) (r : Request)
    (queryOrder : IterationOrder HeaderField) :
    (∀ key, (queryMap (path ++ sentQuery r queryOrder)).lookup key =
      r.queryParams.params.lookup key) ↔ Separable r.queryParams := by
  refine ⟨fun hsame field hfield => ?_, fun h key => lookup_sentQuery hpath h queryOrder key⟩
  have hvalue : r.queryParams.params.lookup field.1 = some field.2 := AList.mem_lookup_iff.mpr hfield
  -- whatever is read can be told apart
  rw [← hsame, ← Option.mem_def, AList.mem_lookup_iff] at hvalue
  exact stored_separable hvalue

variable {α : Type}

theorem queryParams_route (order : NodeOrder α) (r : RouteHandler α) (request : Request) :
    (route order r request).2.queryParams = request.queryParams := by
  unfold route
  split <;> rfl

def fiveAndSum : Parameters :=
  Parameters.emplace (Parameters.emplace {} "n".toList "5".toList) "sum".toList "a=b?".toList

end RoutineHttp.QueryDelivery
