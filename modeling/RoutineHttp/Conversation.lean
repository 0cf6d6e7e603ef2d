import RoutineHttp.RequestService
import RoutineHttp.RequestRelay

/-! A client and a session, both of this library: from the requests the client writes to the
responses it reads. -/
namespace RoutineHttp.Conversation
open Lib HttpSession Segmentation RequestService RequestRelay ResponseDecoding

def sentResponses (events : List Event) : List Response :=
  events.filterMap fun event => match event with
    | .sent response => some response
    | _ => none

@[simp] theorem sentResponses_append (a b : List Event) :
    sentResponses (a ++ b) = sentResponses a ++ sentResponses b :=
  List.filterMap_append

/-- The requests that get a response, each with the response: all of them up to one that is
not delivered, has a response without text, or asks for a close. -/
def answered (s : Scheduler) : List WireRequest → List (WireRequest × Response)
  | [] => []
  | w :: ws => match (deliver s w).2 with
    | .error _ => []
    | .ok request =>
      let response := (respond s request).2.2
      match response.bodyText with
      | .error _ => []
      | .ok _ => (w, response) :: if asksClose w.request.headers then [] else answered s ws

/-- A request the client writes in some orders of its fields. -/
structure Outgoing where
  request : Request
  data : Option Str
  relayable : Relayable request data
  queryOrder : IterationOrder HeaderField
  order : IterationOrder HeaderField

/-- The wire request has the text that is written for the request, and is the same message. -/
def Sent (out : Outgoing) (w : WireRequest) : Prop :=
  (∃ sent, out.request.prepareRequest out.queryOrder out.order = .ok sent ∧ sent.1 = w.text) ∧
    SameMessage out.request (received w) out.data

theorem exists_sent (outs : List Outgoing) : ∃ ws, List.Forall₂ Sent outs ws := by
  induction outs with
  | nil => exact ⟨[], .nil⟩
  | cons out outs ih =>
    obtain ⟨sent, w, hsent, htext, -, hsame⟩ := writes_wire out.relayable out.queryOrder out.order
    obtain ⟨ws, hws⟩ := ih
    exact ⟨w :: ws, .cons ⟨⟨sent, hsent, htext⟩, hsame⟩ hws⟩

theorem sentResponses_deliver (s : Scheduler) (w : WireRequest) :
    sentResponses (deliver s w).1 = [] := by
  unfold deliver doPrepareBody
  split
  · dsimp only
    split <;> rfl
  · rfl

/-- A task sends one response when it has a text, and none otherwise. -/
theorem sentResponses_task (s : Scheduler) (request : Request) (rest : List Str) :
    sentResponses (task s request rest).1 = match (respond s request).2.2.bodyText with
      | .error _ => []
      | .ok _ => [(respond s request).2.2] := by
  have hrespond : sentResponses (respond s request).1 = [] := by
    unfold respond
    split <;> rfl
  have hiff := Response.prepareResponse_ok_iff (respond s request).2.2 s.now s.headerOrder
  unfold task
  dsimp only
  cases hp : (respond s request).2.2.prepareResponse s.now s.headerOrder with
  | error fault =>
    cases hb : (respond s request).2.2.bodyText with
    | error fault' => exact hrespond
    | ok text => rw [hp, hb] at hiff; simp at hiff
  | ok sent =>
    cases hb : (respond s request).2.2.bodyText with
    | error fault' => rw [hp, hb] at hiff; simp at hiff
    | ok text =>
      dsimp only
      split <;> rw [sentResponses_append, hrespond] <;> rfl

/-- A delivered request is served by its task, and the loop goes on when the task does. -/
theorem serve_of_ok {s : Scheduler} {w : WireRequest} {events : List Event} {request : Request}
    (hd : deliver s w = (events, .ok request)) (ws : List WireRequest) :
    ((task s request []).2 = .again [] ∧ (serve s (w :: ws)).1 =
      events ++ .queued w.rawHttp w.body :: (task s request []).1 ++ (serve s ws).1) ∨
    ((task s request []).2 ≠ .again [] ∧ (serve s (w :: ws)).1 =
      events ++ .queued w.rawHttp w.body :: (task s request []).1) := by
  rw [serve, serveOne, hd]
  cases hran : (task s request []).2 with
  | again rest =>
    obtain rfl := task_again hran
    exact Or.inl ⟨rfl, by simp [hran]⟩
  | waiting => exact Or.inr ⟨Next.noConfusion, by simp [hran]⟩
  | stopped => exact Or.inr ⟨Next.noConfusion, by simp [hran]⟩
  | thrown fault => exact Or.inr ⟨Next.noConfusion, by simp [hran]⟩

/-- Serving requests sends the responses of those that are answered, in their order. -/
theorem sentResponses_serve (s : Scheduler) (ws : List WireRequest) :
    sentResponses (serve s ws).1 = (answered s ws).map Prod.snd := by
  induction ws with
  | nil => rfl
  | cons w ws ih =>
    have hdeliver := sentResponses_deliver s w
    cases hd : deliver s w with
    | mk events result =>
      rw [hd] at hdeliver
      cases result with
      | error ended =>
        obtain rfl := deliver_error (s := s) (w := w) (by rw [hd])
        rw [serve, serveOne, hd, answered, hd]
        exact hdeliver
      | ok request =>
        have hqueued : ∀ later, sentResponses (events ++ .queued w.rawHttp w.body :: later) =
            sentResponses later := fun later => by rw [sentResponses_append, hdeliver]; rfl
        have hdelivered : (deliver s w).2 = .ok request := by rw [hd]
        have hheaders := (deliver_head hdelivered).2.2.2
        have htask := sentResponses_task s request []
        rw [answered, hd]
        obtain ⟨hagain, hserve⟩ | ⟨hended, hserve⟩ := serve_of_ok hd ws
        · obtain ⟨⟨text, htext⟩, hclose⟩ := task_again_iff.mp hagain
          rw [hheaders] at hclose
          rw [hserve, sentResponses_append, hqueued, htask, ih]
          simp [htext, hclose]
        · rw [hserve, hqueued, htask]
          cases htext : (respond s request).2.2.bodyText with
          | error fault => simp [htext]
          | ok text =>
            have hclose : asksClose w.request.headers = true := by
              by_contra hopen
              rw [Bool.not_eq_true, ← hheaders] at hopen
              exact hended (task_again_iff.mpr ⟨⟨text, htext⟩, hopen⟩)
            simp [htext, hclose]

theorem answered_isPrefix (s : Scheduler) (ws : List WireRequest) :
    (answered s ws).map Prod.fst <+: ws := by
  induction ws with
  | nil => exact List.prefix_refl _
  | cons w ws ih =>
    rw [answered]
    split
    · exact List.nil_prefix
    · dsimp only
      split
      · exact List.nil_prefix
      · rw [List.map_cons, List.cons_prefix_cons]
        refine ⟨rfl, ?_⟩
        split
        · exact List.nil_prefix
        · exact ih

/-- The loop answers requests that arrive apart. -/
theorem sentResponses_runProcess_apart {s : Scheduler} {ws : List WireRequest}
    {segments : List Str} {later : Str} (hbytes : segments.flatten = bytes ws ++ later)
    (harrives : ArrivesApart segments ws) (hlater : Incomplete later ∨ Ends s ws) :
    sentResponses (runProcess s segments).1 = (answered s ws).map Prod.snd := by
  rw [← sentResponses_serve]
  obtain hran | ⟨hwaits, rest, hrest, hran⟩ := runProcess_bytes s ws hbytes harrives
  · rw [hran]
  · have hincomplete := hlater.resolve_right fun h => h hwaits
    rw [hran, runProcess_incomplete (hrest ▸ hincomplete), List.append_nil]

/-- The texts of responses hold just their messages. -/
theorem read_written (written : List WrittenResponse) : ∃ ms,
    readMessage.take written.length (written.map WrittenResponse.text).flatten = some (ms, []) ∧
      List.Forall₂ Carries written ms := by
  obtain ⟨ms, hcarries, hreads⟩ := exists_messages written
  have htake := take_of_reads hreads []
  rw [List.append_nil, ← hcarries.length_eq] at htake
  exact ⟨ms, htake, hcarries⟩

end RoutineHttp.Conversation
