import RoutineHttp.Segmentation

/-! Reading a body of the announced length, with every way out of `do_read_body`: an
exception, a failed read, a written body. -/
namespace RoutineHttp.BodyLength
open HttpSession

/-- The value of a `std::error_code`, 0 on success. -/
abbrev ErrorCode := Nat

def notSupported : ErrorCode := 95

def ignoringErrorCodes : List ErrorCode := [125]

def isErrors (ec : ErrorCode) (isOpen : Bool) : Bool :=
  (ec != 0 && !ignoringErrorCodes.contains ec) || !isOpen

/-- What a blocking read appended to the buffer, its error code, and whether the socket is
open afterwards. -/
structure SocketRead where
  bytes : Str
  error : ErrorCode
  isOpen : Bool

/-- `asio::read` with `transfer_exactly`: without an error all bytes asked for are there. -/
structure Socket where
  read : Nat → SocketRead
  complete : ∀ count, (read count).error = 0 → (read count).bytes.length = count

/-- What a call of `do_read_body` did: the length it took from the header, the bytes it asked
the socket for, those it wrote as body, and the calls of the callback, each with the body of
the message at that time. -/
structure BodyRun where
  length : Option Nat := none
  requested : Nat := 0
  written : Option Str := none
  calls : List (ErrorCode × Option BodyStorage) := []
  thrown : Option Fault := none

/-- The end of `do_read_body`: the buffer is written through the body pointer, null or not. -/
def writeBody (fromString : Str → Option JsonValue) (body : Option BodyStorage) (buffer : Str)
    (run : BodyRun) : BodyRun :=
  match body with
  | none => { run with thrown := some .undefinedBehaviour }
  | some storage =>
    { run with written := some buffer, calls := [(0, some (storage.write fromString buffer))] }

def doReadBody (fromString : Str → Option JsonValue) (headers : Headers)
    (body : Option BodyStorage) (buffer : Str) (socket : Socket) : BodyRun :=
  match (do stoull (← headers.get Header.contentLength.name)) with
  | .error fault => { thrown := some fault }
  | .ok contentLength =>
    let bodyNotLoaded := sizeSub contentLength buffer.length
    let run : BodyRun := { length := some contentLength, requested := bodyNotLoaded }
    if bodyNotLoaded > 0 then
      let got := socket.read bodyNotLoaded
      if isErrors got.error got.isOpen then { run with calls := [(got.error, body)] }
      else writeBody fromString body (buffer ++ got.bytes) run
    else writeBody fromString body buffer run

/-- The completion handler of a head that has been read, from the text of the head on. -/
def onHead (s : Scheduler) (str buffer : Str) (socket : Socket) : BodyRun :=
  match Request.ofRaw str with
  | .error fault => { thrown := some fault }
  | .ok object =>
    if isChunked object.headers then { calls := [(notSupported, object.body)] }
    else if hasLength object.headers then
      let prepared := (doPrepareBody s object).2
      doReadBody s.fromString prepared.headers prepared.body buffer socket
    else { calls := [(0, object.body)] }

/-- The bytes a read of this size brings; none is started for no bytes. -/
def received (socket : Socket) (count : Nat) : Str :=
  if count > 0 then (socket.read count).bytes else []

/-- The read of this size, if one is needed, succeeds on a socket that stays open. -/
def Delivers (socket : Socket) (count : Nat) : Prop :=
  count > 0 → (socket.read count).error = 0 ∧ (socket.read count).isOpen = true

/-- A session of segments is a socket that stays open; what is not there ends the read. -/
def segmentSocket (segments : List Str) : Socket where
  read count := match Lib.collectExactly count segments with
    | some got => ⟨got.1, 0, true⟩
    | none => ⟨segments.flatten, 2, true⟩
  complete := by
    intro count h
    cases hc : Lib.collectExactly count segments with
    | some got => exact (Lib.collectExactly_eq_some hc).1
    | none => rw [hc] at h; cases h

/-- The body of a message of `n` bytes: the missing ones are asked for, and when they come the
body is what the buffer has of it followed by them. -/
def ExactBody (n : Nat) (buffer data : Str) (socket : Socket) (run : BodyRun) : Prop :=
  run.requested = n - buffer.length ∧ (Delivers socket (n - buffer.length) →
    (received socket (n - buffer.length)).length = n - buffer.length ∧
    run.calls = [(0, some (.memory (data ++ (buffer.take n ++ received socket (n - buffer.length)))))])

def ReadFails (socket : Socket) (count : Nat) : Prop :=
  0 < count ∧ isErrors (socket.read count).error (socket.read count).isOpen = true

/-- Whether the value of the header is a length, and which. -/
def IsLength (v : Str) (n : Nat) : Prop := IsDecimal v n ∧ n < sizeLimit

/-- One call of the callback and no exception: a length is used as such, for anything else the
callback gets an error and no body is read. -/
def Handled (v : Str) (run : BodyRun) : Prop :=
  run.thrown = none ∧ ∃ ec body, run.calls = [(ec, body)] ∧
    ((∃ n, IsLength v n ∧ run.length = some n) ∨
      (¬ ∃ n, IsLength v n) ∧ ec ≠ 0 ∧ run.requested = 0 ∧ run.written = none)

section
variable {fromString : Str → Option JsonValue} {headers : Headers} {body : Option BodyStorage}
  {buffer v : Str} {socket : Socket}

theorem doReadBody_thrown (hv : headers.get Header.contentLength.name = .ok v) {fault : Fault}
    (hs : stoull v = .error fault) :
    doReadBody fromString headers body buffer socket = { thrown := some fault } := by
  unfold doReadBody
  simp only [hv, hs, bind, Except.bind]

/-- A failed read of the missing bytes goes to the callback. -/
theorem doReadBody_failed (hv : headers.get Header.contentLength.name = .ok v) {n : Nat}
    (hs : stoull v = .ok n) (hfail : ReadFails socket (sizeSub n buffer.length)) :
    doReadBody fromString headers body buffer socket =
      { length := some n, requested := sizeSub n buffer.length,
        calls := [((socket.read (sizeSub n buffer.length)).error, body)] } := by
  obtain ⟨hcount, herror⟩ := hfail
  unfold doReadBody
  simp [hv, hs, bind, Except.bind, hcount, herror]

/-- Otherwise the buffer and what came are written. -/
theorem doReadBody_written (hv : headers.get Header.contentLength.name = .ok v) {n : Nat}
    (hs : stoull v = .ok n) (hfail : ¬ ReadFails socket (sizeSub n buffer.length)) :
    doReadBody fromString headers body buffer socket =
      writeBody fromString body (buffer ++ received socket (sizeSub n buffer.length))
        { length := some n, requested := sizeSub n buffer.length } := by
  unfold doReadBody received
  by_cases hcount : sizeSub n buffer.length > 0
  · have herror : isErrors (socket.read (sizeSub n buffer.length)).error
        (socket.read (sizeSub n buffer.length)).isOpen = false :=
      Bool.eq_false_iff.mpr fun h => hfail ⟨hcount, h⟩
    simp [hv, hs, bind, Except.bind, hcount, herror]
  · simp [hv, hs, bind, Except.bind, hcount]

theorem not_readFails_of_delivers {count : Nat} (h : Delivers socket count) :
    ¬ ReadFails socket count := by
  rintro ⟨hc, he⟩
  obtain ⟨hzero, hopen⟩ := h hc
  rw [hzero, hopen] at he
  exact absurd he (by decide)

theorem length_received {count : Nat} (h : Delivers socket count) :
    (received socket count).length = count := by
  unfold received
  split
  · next hc => exact socket.complete count (h hc).1
  · next hc => exact (Nat.eq_zero_of_not_pos hc).symm

theorem requested_eq (hv : headers.get Header.contentLength.name = .ok v) {n : Nat}
    (hs : stoull v = .ok n) :
    (doReadBody fromString headers body buffer socket).requested = sizeSub n buffer.length := by
  by_cases hfail : ReadFails socket (sizeSub n buffer.length)
  · rw [doReadBody_failed hv hs hfail]
  · rw [doReadBody_written hv hs hfail]
    cases body <;> rfl

/-- A body is read exactly when no more than the body is in the buffer. -/
theorem exact_body_iff {n : Nat} {data : Str} (hv : headers.get Header.contentLength.name = .ok v)
    (hdecimal : IsDecimal v n) (hn : n < sizeLimit) :
    ExactBody n buffer data socket
      (doReadBody fromString headers (some (.memory data)) buffer socket) ↔ buffer.length ≤ n := by
  have hs := stoull_of_isDecimal hdecimal hn
  constructor
  · rintro ⟨hrequested, hwritten⟩
    by_contra hlt
    have hzero : n - buffer.length = 0 := by omega
    rw [requested_eq hv hs, hzero] at hrequested
    have hnone : ¬ ReadFails socket (sizeSub n buffer.length) := by
      rw [hrequested]
      exact fun h => Nat.lt_irrefl 0 h.1
    -- nothing is asked for, so the whole buffer is the body
    obtain ⟨-, hcalls⟩ := hwritten fun h => absurd h (by omega)
    rw [doReadBody_written hv hs hnone, hrequested, hzero] at hcalls
    simp only [writeBody, BodyStorage.write, received, gt_iff_lt, Nat.lt_irrefl, if_false,
      List.append_nil, List.cons.injEq, Prod.mk.injEq, Option.some.injEq, BodyStorage.memory.injEq,
      List.append_cancel_left_eq, and_true, true_and] at hcalls
    have hlen := congrArg List.length hcalls
    rw [List.length_take] at hlen
    omega
  · intro hle
    have hcount : sizeSub n buffer.length = n - buffer.length := sizeSub_of_le hle
    refine ⟨(requested_eq hv hs).trans hcount, fun hd => ⟨length_received hd, ?_⟩⟩
    rw [← hcount] at hd ⊢
    rw [doReadBody_written hv hs (not_readFails_of_delivers hd), List.take_of_length_le hle]
    rfl

/-- On an open socket without errors this is the body reading of the request loop. -/
theorem doReadBody_of_segments {segments rest : List Str} {written : Str} {storage : BodyStorage}
    (h : HttpSession.doReadBody fromString headers body buffer segments =
      .ok (written, storage, rest)) :
    (doReadBody fromString headers body buffer (segmentSocket segments)).calls =
        [(0, some storage)] ∧
      (doReadBody fromString headers body buffer (segmentSocket segments)).written =
        some written := by
  obtain ⟨n, read, hn, hread, rfl⟩ := doReadBody_ok h
  have hstoull : ∃ v, headers.get Header.contentLength.name = .ok v ∧ stoull v = .ok n := by
    unfold contentLength at hn
    split at hn
    · next length hlength =>
      cases hn
      exact bind_eq_ok hlength
    · cases hn
  obtain ⟨v, hv, hs⟩ := hstoull
  have hsocket : (segmentSocket segments).read (sizeSub n buffer.length) = ⟨read, 0, true⟩ := by
    simp only [segmentSocket, hread]
  have hdelivers : Delivers (segmentSocket segments) (sizeSub n buffer.length) := by
    intro _
    rw [hsocket]
    exact ⟨rfl, rfl⟩
  have hreceived : received (segmentSocket segments) (sizeSub n buffer.length) = read := by
    unfold received
    rw [hsocket]
    split
    · rfl
    · next hc =>
      rw [Nat.eq_zero_of_not_pos hc, Lib.collectExactly_zero] at hread
      cases hread
      rfl
  rw [doReadBody_written hv hs (not_readFails_of_delivers hdelivers), hreceived]
  unfold HttpSession.doReadBody at h
  simp only [hn, readMissing_eq, readExactly_ok.mpr hread, bind, Except.bind] at h
  cases body with
  | none => cases h
  | some storage' =>
    cases h
    exact ⟨rfl, rfl⟩

/-- A value is handled when it is a length and there is a storage for a body that is read. -/
theorem handled_iff (hv : headers.get Header.contentLength.name = .ok v) :
    Handled v (doReadBody fromString headers body buffer socket) ↔
      ∃ n, IsLength v n ∧ (body = none → ReadFails socket (sizeSub n buffer.length)) := by
  cases hs : stoull v with
  | error fault =>
    rw [doReadBody_thrown hv hs]
    refine iff_of_false (fun h => by cases h.1) ?_
    rintro ⟨n, hn, -⟩
    rw [stoull_of_isDecimal hn.1 hn.2] at hs
    cases hs
  | ok m =>
    have hlength : ∀ n, IsLength v n → n = m := fun n hn => by
      rw [stoull_of_isDecimal hn.1 hn.2] at hs
      exact Except.ok.inj hs
    by_cases hfail : ReadFails socket (sizeSub m buffer.length)
    · rw [doReadBody_failed hv hs hfail]
      constructor
      · rintro ⟨-, ec, body', -, ⟨n, hn, -⟩ | ⟨-, -, hrequested, -⟩⟩
        · exact ⟨n, hn, fun _ => hlength n hn ▸ hfail⟩
        · exact absurd hrequested hfail.1.ne'
      · rintro ⟨n, hn, -⟩
        exact ⟨rfl, _, _, rfl, Or.inl ⟨n, hn, by rw [hlength n hn]⟩⟩
    · rw [doReadBody_written hv hs hfail]
      cases body with
      | none =>
        refine iff_of_false (fun h => by cases h.1) ?_
        rintro ⟨n, hn, hnone⟩
        exact hfail (hlength n hn ▸ hnone rfl)
      | some storage =>
        constructor
        · rintro ⟨-, ec, body', hcalls, ⟨n, hn, -⟩ | ⟨-, hec, -⟩⟩
          · exact ⟨n, hn, fun h => by cases h⟩
          · cases hcalls
            exact absurd rfl hec
        · rintro ⟨n, hn, -⟩
          exact ⟨rfl, _, _, rfl, Or.inl ⟨n, hn, by rw [hlength n hn]; rfl⟩⟩

end

/-- A head with a Content-Length goes on to the body. -/
theorem onHead_eq {s : Scheduler} {str v : Str} {object : Request}
    (hparse : Request.ofRaw str = .ok object)
    (hv : object.headers.get Header.contentLength.name = .ok v) (buffer : Str) (socket : Socket) :
    onHead s str buffer socket = doReadBody s.fromString object.headers
      (doPrepareBody s object).2.body buffer socket := by
  have hlength : hasLength object.headers = true :=
    decide_eq_true (Lib.mem_iff_exists_lookup.mpr ⟨v, Headers.get_eq_ok_iff.mp hv⟩)
  have hchunked : isChunked object.headers = false := by rw [isChunked, hlength]; rfl
  have hheaders := (Segmentation.doPrepareBody_head s object).2.2.2
  simp only [onHead, hparse, hchunked, hlength, Bool.false_eq_true, if_false, if_true, hheaders]

/-- The surplus of a buffer that holds more than the body is never taken off. -/
theorem surplus_asks_for_more : ∃ headers : Headers,
    Headers.initFromStream {} "Content-Length: 2\r\n".toList = .ok headers ∧
    ¬ ExactBody 2 "abc".toList [] (segmentSocket []) (doReadBody (fun _ => none) headers
      (some .emptyMemory) "abc".toList (segmentSocket [])) := by
  have hparsed : ∃ headers : Headers,
      Headers.initFromStream {} "Content-Length: 2\r\n".toList = .ok headers ∧
        headers.get Header.contentLength.name = .ok "2".toList := ⟨_, rfl, rfl⟩
  obtain ⟨headers, hp, hv⟩ := hparsed
  have hs : stoull "2".toList = .ok 2 := rfl
  refine ⟨headers, hp, fun h => ?_⟩
  have hrequested := h.1
  rw [requested_eq hv hs] at hrequested
  exact absurd hrequested (by decide)

theorem exact_body_iff_missing : ∃ headers : Headers,
    Headers.initFromStream {} "Content-Length: 5\r\n".toList = .ok headers ∧
    ExactBody 5 "ab".toList [] (segmentSocket ["cdef".toList]) (doReadBody (fun _ => none) headers
      (some .emptyMemory) "ab".toList (segmentSocket ["cdef".toList])) := by
  have hparsed : ∃ headers : Headers,
      Headers.initFromStream {} "Content-Length: 5\r\n".toList = .ok headers ∧
        headers.get Header.contentLength.name = .ok "5".toList := ⟨_, rfl, rfl⟩
  obtain ⟨headers, hp, hv⟩ := hparsed
  exact ⟨headers, hp, (exact_body_iff hv
    ⟨List.cons_ne_nil _ _, List.forall_mem_singleton.mpr rfl, rfl⟩ (by decide)).mpr (by decide)⟩

end RoutineHttp.BodyLength
