import RoutineHttp.BodyLength
import RoutineHttp.HandlerProtocol

/-! The storage a body is written to. Whether there is one is decided by the handler and the
method, whether a body is written by the Content-Length. -/
namespace RoutineHttp.PreparedBody
open HttpSession BodyLength

/-- No write went through a null body pointer. -/
def WritesToStorage (run : BodyRun) : Prop := run.thrown ≠ some .undefinedBehaviour

/-- The end of `do_read_body` is reached: the length is one, and what is missing of the body
comes in. -/
def ReachesWrite (v buffer : Str) (socket : Socket) : Prop :=
  ∃ n, stoull v = .ok n ∧ ¬ ReadFails socket (sizeSub n buffer.length)

theorem stoull_error {text : Str} {fault : Fault} (h : stoull text = .error fault) :
    fault ≠ .undefinedBehaviour := by
  unfold stoull at h
  split at h
  rename_i negative rest _
  dsimp only at h
  split at h
  · cases h
    exact nofun
  · split at h
    · cases h
      exact nofun
    · cases h

theorem routeRequest_body (s : Scheduler) (request : Request) :
    (s.routeRequest request).2.body = request.body := by
  unfold Scheduler.routeRequest RouteHandler.route
  split
  · rfl
  · split <;> rfl

theorem ofRaw_body {str : Str} {object : Request} (h : Request.ofRaw str = .ok object) :
    object.body = none := by
  obtain ⟨method, target, version, headers, -, -, -, -, rfl⟩ := Request.ofRaw_ok h
  rfl

/-- A null pointer reaches `do_read_body` from a default handler asked with HEAD. -/
theorem doPrepareBody_body_iff {s : Scheduler} {object : Request} (hbody : object.body = none)
    (hdefault : ∀ handler, (s.routeRequest object).1 = some handler →
      handler.prepareRequest = defaultPrepare) :
    (doPrepareBody s object).2.body = none ↔
      object.method = .head ∧ (s.routeRequest object).1.isSome = true := by
  have hhead := (s.routeRequest_head object).1
  have hrouted := (routeRequest_body s object).trans hbody
  unfold doPrepareBody
  cases hr : s.routeRequest object with
  | mk found routed =>
    rw [hr] at hhead hrouted hdefault
    cases found with
    | none => exact iff_of_false (Option.some_ne_none _) fun h => Bool.false_ne_true h.2
    | some handler =>
      change (handler.prepareRequest routed).1.body = none ↔ _
      rw [hdefault handler rfl, defaultPrepare]
      by_cases hm : object.method = .head
      · rw [if_neg (not_not.mpr (hhead.trans hm))]
        exact iff_of_true hrouted ⟨hm, rfl⟩
      · rw [if_pos (fun he => hm (hhead.symm.trans he))]
        exact iff_of_false (Option.some_ne_none _) fun h => hm h.1

/-- With a default handler, or none, the body goes to a storage exactly when no HEAD request
is routed and its body read to the end. -/
theorem writes_to_storage_iff {s : Scheduler} {str v : Str} {object : Request}
    (hparse : Request.ofRaw str = .ok object)
    (hv : object.headers.get Header.contentLength.name = .ok v)
    (hdefault : ∀ handler, (s.routeRequest object).1 = some handler →
      handler.prepareRequest = defaultPrepare) (buffer : Str) (socket : Socket) :
    WritesToStorage (onHead s str buffer socket) ↔
      ¬ (object.method = .head ∧ (s.routeRequest object).1.isSome = true ∧
        ReachesWrite v buffer socket) := by
  have hbody := doPrepareBody_body_iff (ofRaw_body hparse) hdefault
  rw [onHead_eq hparse hv, ← and_assoc, ← hbody]
  generalize (doPrepareBody s object).2.body = body
  unfold WritesToStorage ReachesWrite
  cases hs : stoull v with
  | error fault =>
    rw [doReadBody_thrown hv hs]
    simp [stoull_error hs]
  | ok n =>
    by_cases hfail : ReadFails socket (sizeSub n buffer.length)
    · rw [doReadBody_failed hv hs hfail]
      simp [hfail]
    · rw [doReadBody_written hv hs hfail]
      cases body with
      | none => simp [writeBody, hfail]
      | some storage => simp [writeBody]

/-- A handler that keeps the default preparation. -/
def defaultHandler : RequestHandler :=
  HandlerProtocol.twoAnswers none (HandlerProtocol.plainText "done")

theorem prepareRequest_defaultHandler : defaultHandler.prepareRequest = defaultPrepare := rfl

/-- The default handler makes no storage for HEAD, and an empty body is written all the
same. -/
theorem head_writes_to_null : defaultHandler.prepareRequest = defaultPrepare ∧
    ∃ object, Request.ofRaw "HEAD /a HTTP/1.1\r\nContent-Length: 0\r\n".toList = .ok object ∧
      object.headers.get Header.contentLength.name = .ok "0".toList ∧
      ((HandlerProtocol.serving defaultHandler).routeRequest object).1 = some defaultHandler ∧
      ¬ WritesToStorage (onHead (HandlerProtocol.serving defaultHandler)
        "HEAD /a HTTP/1.1\r\nContent-Length: 0\r\n".toList [] (segmentSocket [])) := by
  have hthrown : (onHead (HandlerProtocol.serving defaultHandler)
      "HEAD /a HTTP/1.1\r\nContent-Length: 0\r\n".toList [] (segmentSocket [])).thrown =
      some .undefinedBehaviour := rfl
  exact ⟨rfl, _, rfl, rfl, rfl, fun hw => hw hthrown⟩

theorem writes_to_storage_iff_post :
    WritesToStorage (onHead (HandlerProtocol.serving defaultHandler)
      "POST /a HTTP/1.1\r\nContent-Length: 2\r\n".toList "hi".toList (segmentSocket [])) := by
  have hparsed : ∃ object,
      Request.ofRaw "POST /a HTTP/1.1\r\nContent-Length: 2\r\n".toList = .ok object ∧
      object.headers.get Header.contentLength.name = .ok "2".toList ∧ object.method = .post ∧
      ((HandlerProtocol.serving defaultHandler).routeRequest object).1 = some defaultHandler :=
    ⟨_, rfl, rfl, rfl, rfl⟩
  obtain ⟨object, hparse, hv, hm, hrouted⟩ := hparsed
  have hdefault : ∀ handler,
      ((HandlerProtocol.serving defaultHandler).routeRequest object).1 = some handler →
        handler.prepareRequest = defaultPrepare := by
    intro handler hhandler
    rw [hrouted] at hhandler
    cases hhandler
    exact prepareRequest_defaultHandler
  exact (writes_to_storage_iff hparse hv hdefault _ _).mpr fun h => by rw [hm] at h; cases h.1

end RoutineHttp.PreparedBody
