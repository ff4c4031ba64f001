import Wwatp.Server.Batching

/-! What a route reports of the outcome of a mutating request, and how often it carries the
request out. -/
namespace Wwatp
namespace ServerRoute

open Cxx

variable {σ : Type}

/-- A call of the backend that changes it, and the response that reports its outcome. -/
structure Mutation (σ : Type) where
  call : BackendCall
  operation : σ → BackendReply σ Bool
  response : Bool → MessageCall

/-- The mutation that a complete message asks for. The other messages ask for none. -/
def mutationOf (B : Backend σ) (m : HTTP3TreeMessage) : Option (Outcome (Mutation σ)) :=
  match m.signal with
  | 0x09 => some do
    let nodes ← m.decodeUpsertNodeRequest
    return ⟨.upsertNode nodes, B.upsertNode nodes, .upsertNodeResponse⟩
  | 0x0B => some do
    let labelRule ← m.decodeDeleteNodeRequest
    return ⟨.deleteNode labelRule, B.deleteNode labelRule, .deleteNodeResponse⟩
  | 0x11 => some do
    let node ← m.decodeOpenTransactionLayerRequest
    return ⟨.openTransactionLayer node, B.openTransactionLayer node, .openTransactionLayerResponse⟩
  | 0x13 => some (.ok ⟨.closeTransactionLayers, B.closeTransactionLayers, .closeTransactionLayersResponse⟩)
  | 0x15 => some do
    let transaction ← m.decodeApplyTransactionRequest
    return ⟨.applyTransaction transaction, B.applyTransaction transaction, .applyTransactionResponse⟩
  | _ => none

/-- The outcome as a response can tell it: false if the call was rejected or threw. -/
def reported : Outcome Bool → Bool
  | .ok accepted => accepted
  | .error _ => false

/-- However the request is split, it is answered with the outcome of the backend's call, and
the call is made once, also when the stream is processed later. -/
def ReportsOutcome (B : Backend σ) (stream : StreamIdentifier) (request : List SharedSpan)
    (requestId : UInt16) (mutation : Mutation σ) (s : RouteStreams σ) : Prop :=
  ∀ batches, SplitOf request batches → ∃ responses after,
    processBatches B stream batches s = (.ok responses, after) ∧
      (mutation.response (reported (mutation.operation s.route.backend).outcome)).encode requestId =
        .ok (responses.flatten.takeWhile (!isCloseSignal ·)) ∧
      ∀ later : List (List SharedSpan), (∀ r ∈ later, asksForCleanup r = .ok false) →
        (processBatches B stream later after).2.route.backendCalls =
          s.route.backendCalls ++ [mutation.call]

section Answer

variable {B : Backend σ} {m : HTTP3TreeMessage} {mutation : Mutation σ} {route : ServerRoute σ}

/-- The backend is called, its result is dropped, and true is answered. -/
theorem answer_eq (h : mutationOf B m = some (.ok mutation)) : answer B m route =
    (call mutation.call mutation.operation >>= fun _ =>
      (pure (mutation.response true) : Effectful (ServerRoute σ) MessageCall)) route := by
  unfold mutationOf at h
  unfold answer
  split at h <;> rename_i hSignal
  case h_4 =>
    cases h
    simp only [hSignal]
  case h_6 => cases h
  all_goals
    obtain ⟨decoded, hDecoded, hMutation⟩ := Outcome.bind_eq_ok.mp (Option.some.inj h)
    obtain rfl := Except.ok.inj hMutation
    simp only [hSignal]
    exact Effectful.bind_inspect (f := fun _ => _) hDecoded

/-- A response is one chunk with the outcome as its text. -/
theorem encode_response (h : mutationOf B m = some (.ok mutation)) (requestId : UInt16) :
    ∃ signal, ∀ success, (mutation.response success).encode requestId =
      .ok [payloadSpan requestId signal (boolText success)] := by
  have hLabel (signal : UInt8) (success : Bool) :
      encodeEach (HelperCall.encode requestId signal) [.label (boolText success)] =
        .ok [payloadSpan requestId signal (boolText success)] := by
    cases success <;> rfl
  unfold mutationOf at h
  split at h
  case h_4 =>
    cases h
    exact ⟨_, hLabel _⟩
  case h_6 => cases h
  all_goals
    obtain ⟨decoded, -, hMutation⟩ := Outcome.bind_eq_ok.mp (Option.some.inj h)
    obtain rfl := Except.ok.inj hMutation
    exact ⟨_, hLabel _⟩

/-- The client can tell the two outcomes apart. -/
theorem encode_response_injective (h : mutationOf B m = some (.ok mutation)) {requestId : UInt16}
    {success other : Bool}
    (hSame : (mutation.response success).encode requestId = (mutation.response other).encode requestId) :
    success = other := by
  obtain ⟨signal, hEncode⟩ := encode_response h requestId
  rw [hEncode, hEncode] at hSame
  have hText : boolText success = boolText other := by
    rw [← bytes_payloadSpan requestId signal (boolText success), (List.cons.inj (Except.ok.inj hSame)).1,
      bytes_payloadSpan]
  revert hText
  cases success <;> cases other <;> decide

/-- The route after the backend's call. -/
def afterMutation (mutation : Mutation σ) (route : ServerRoute σ) : ServerRoute σ :=
  (call mutation.call mutation.operation route).2

/-- A call that returns is reported to have succeeded, whatever it returned. -/
theorem buildResponseChunks_returned (h : mutationOf B m = some (.ok mutation)) {accepted : Bool}
    (hReturned : (mutation.operation route.backend).outcome = .ok accepted) :
    ∃ built, buildResponseChunks B (route, m) = (.ok (), (afterMutation mutation route, built)) ∧
      ∃ encoded, (mutation.response true).encode m.requestId = .ok encoded ∧
        built.responseChunks = m.responseChunks ++ encoded := by
  have hCall : call mutation.call mutation.operation route = (.ok accepted, afterMutation mutation route) := by
    rw [← hReturned]
    rfl
  have hAnswer : answer B m route = (.ok (mutation.response true), afterMutation mutation route) := by
    rw [answer_eq h, Effectful.bind_ok hCall]
    rfl
  obtain ⟨signal, hEncode⟩ := encode_response h m.requestId
  refine ⟨{ m with
      signal := (mutation.response true).signal
      responseChunks := m.responseChunks ++ [payloadSpan m.requestId signal (boolText true)]
      responseComplete := true }, ?_, _, hEncode true, rfl⟩
  have hMessage : answerMessage B (route, m) =
      (.ok (mutation.response true), (afterMutation mutation route, m)) := by
    simp only [answerMessage, hAnswer]
  rw [buildResponseChunks, Effectful.bind_ok hMessage]
  exact Effectful.bind_inspect (f := fun s : ServerRoute σ × HTTP3TreeMessage =>
    (mutation.response true).encode s.2.requestId)
    (s := (afterMutation mutation route, { m with signal := (mutation.response true).signal })) (hEncode true)

/-- A call that throws leaves the message as it was: complete, and not answered. -/
theorem buildResponseChunks_thrown (h : mutationOf B m = some (.ok mutation)) {fault : Fault}
    (hThrown : (mutation.operation route.backend).outcome = .error fault) :
    buildResponseChunks B (route, m) = (.error fault, (afterMutation mutation route, m)) := by
  have hCall : call mutation.call mutation.operation route = (.error fault, afterMutation mutation route) := by
    rw [← hThrown]
    rfl
  have hMessage : answerMessage B (route, m) = (.error fault, (afterMutation mutation route, m)) := by
    simp only [answerMessage, answer_eq h, Effectful.bind_error hCall]
  rw [buildResponseChunks, Effectful.bind_error hMessage]

/-- After an exception the next call for the stream carries the operation out again. -/
theorem processResponseStream_again {stream : StreamIdentifier} {s : RouteStreams σ} {fault : Fault}
    (h : mutationOf B m = some (.ok mutation)) (hMessage : s.ongoingResponses stream = some m)
    (hOpen : m.processingFinished = false) (hComplete : m.requestComplete = true)
    (hFresh : m.responseComplete = false)
    (hThrown : (mutation.operation s.route.backend).outcome = .error fault) :
    processResponseStream B stream [] s =
      (.error fault, ⟨afterMutation mutation s.route, s.ongoingResponses⟩) := by
  have hServe : serve B [] (s.route, m) = (.error fault, (afterMutation mutation s.route, m)) := by
    rw [serve_build (List.forall_mem_nil _) (rfl : m.pushRequestChunks (payloads []) = .ok m) hComplete hFresh,
      Effectful.bind_error (buildResponseChunks_thrown h hThrown)]
  rw [processResponseStream_ongoing hMessage hOpen hServe, ← hMessage, Function.update_eq_self]

end Answer

section Report

variable {B : Backend σ} {stream : StreamIdentifier} {request : List SharedSpan} {s : RouteStreams σ}
  {done : HTTP3TreeMessage} {mutation : Mutation σ}

/-- A request in one piece is a split of itself. -/
theorem SplitOf.whole (hRequest : Recognised stream request done) : SplitOf request [request] where
  begins := rfl
  chunks := by
    rw [List.flatten_singleton, payloads, List.filter_eq_self]
    intro chunk hChunk
    rw [hRequest.payload chunk hChunk]
    decide

/-- A call that returns is answered with true and not repeated. -/
theorem processBatches_returned (hIdle : s.ongoingResponses stream = none)
    (hRequest : Recognised stream request done) (hMutation : mutationOf B done = some (.ok mutation))
    {accepted : Bool} (hReturned : (mutation.operation s.route.backend).outcome = .ok accepted)
    {batches : List (List SharedSpan)} (hSplit : SplitOf request batches) : ∃ responses after,
      processBatches B stream batches s = (.ok responses, after) ∧
        (mutation.response true).encode done.requestId =
          .ok (responses.flatten.takeWhile (!isCloseSignal ·)) ∧
        ∀ later : List (List SharedSpan), (∀ r ∈ later, asksForCleanup r = .ok false) →
          (processBatches B stream later after).2.route.backendCalls =
            s.route.backendCalls ++ [mutation.call] := by
  obtain ⟨built, hBuild, encoded, hEncode, hChunks⟩ := buildResponseChunks_returned hMutation hReturned
  obtain ⟨responses, after, hRun, hRoute, hResponse, hLater⟩ :=
    processBatches_split hIdle hRequest hBuild hSplit
  refine ⟨responses, after, hRun, ?_, fun later hKeep => ?_⟩
  · obtain ⟨first, rest, m, -, hInitial, hCompletes⟩ := hRequest.completes
    obtain ⟨signal, rfl⟩ := initializeResponseMessage_ok hInitial
    have hNone : done.responseChunks = [] :=
      (HTTP3TreeMessage.pushRequestChunks_sameResponse hCompletes.pushed).responseChunks
    rw [hResponse, hChunks, hNone, List.nil_append, hEncode]
  · rw [hLater later hKeep, hRoute]
    rfl

/-- A call that throws ends the processing of the request. -/
theorem processBatches_thrown (hIdle : s.ongoingResponses stream = none)
    (hRequest : Recognised stream request done) (hMutation : mutationOf B done = some (.ok mutation))
    {fault : Fault} (hThrown : (mutation.operation s.route.backend).outcome = .error fault) :
    (processBatches B stream [request] s).1 = .error fault := by
  obtain ⟨first, rest, m, rfl, hInitial, hCompletes⟩ := hRequest.completes
  obtain ⟨signal, rfl⟩ := initializeResponseMessage_ok hInitial
  have hWhole : payloads (first :: rest) = first :: rest := by
    simpa using (SplitOf.whole hRequest).chunks
  have hSame := HTTP3TreeMessage.pushRequestChunks_sameResponse hCompletes.pushed
  have hServe : serve B (first :: rest) (s.route, { requestId := stream.logicalId, signal }) =
      (.error fault, (afterMutation mutation s.route, done)) := by
    rw [serve_build (by rw [hWhole]; exact hRequest.payload) (by rw [hWhole]; exact hCompletes.pushed)
      hCompletes.complete hSame.responseComplete,
      Effectful.bind_error (buildResponseChunks_thrown hMutation hThrown)]
  have hProcess : processResponseStream B stream (first :: rest)
      { s with ongoingResponses := Function.update s.ongoingResponses stream (some _) } =
        (.error fault, _) := processResponseStream_ongoing (Function.update_self ..) rfl hServe
  rw [processBatches_start hIdle rfl hInitial]
  exact congrArg Prod.fst (Effectful.bind_error hProcess)

/-- Only true is reported. -/
theorem outcome_of_reportsOutcome (hIdle : s.ongoingResponses stream = none)
    (hRequest : Recognised stream request done) (hMutation : mutationOf B done = some (.ok mutation))
    (h : ReportsOutcome B stream request done.requestId mutation s) :
    (mutation.operation s.route.backend).outcome = .ok true := by
  obtain ⟨responses, after, hRun, hResponse, -⟩ := h [request] (.whole hRequest)
  cases hOutcome : (mutation.operation s.route.backend).outcome with
  | error fault =>
      have hThrown := processBatches_thrown hIdle hRequest hMutation hOutcome
      rw [hRun] at hThrown
      cases hThrown
  | ok accepted =>
      obtain ⟨responses', after', hRun', hResponse', -⟩ :=
        processBatches_returned hIdle hRequest hMutation hOutcome (.whole hRequest)
      obtain ⟨hSame, -⟩ := Prod.mk.inj (hRun.symm.trans hRun')
      obtain rfl := Except.ok.inj hSame
      rw [hOutcome, ← hResponse'] at hResponse
      exact congrArg Except.ok (encode_response_injective hMutation hResponse)

/-- The outcome is reported, and the operation carried out once, exactly when the backend's
call returns true. -/
theorem reportsOutcome_iff (hIdle : s.ongoingResponses stream = none)
    (hRequest : Recognised stream request done) (hMutation : mutationOf B done = some (.ok mutation)) :
    ReportsOutcome B stream request done.requestId mutation s ↔
      (mutation.operation s.route.backend).outcome = .ok true := by
  refine ⟨outcome_of_reportsOutcome hIdle hRequest hMutation, fun hOutcome batches hSplit => ?_⟩
  have hReturned := processBatches_returned hIdle hRequest hMutation hOutcome hSplit
  rwa [hOutcome]

/-- A request to delete `A`. -/
def deletionRequest : SharedSpan := payloadSpan 1 0x0B (str "A")

/-- The message of that request. -/
def deletionMessage : HTTP3TreeMessage where
  requestId := 1
  signal := 0x0B
  isInitialized := true
  requestChunks := [deletionRequest]
  requestComplete := true

theorem recognised_deletion : Recognised ⟨[], 1⟩ [deletionRequest] deletionMessage :=
  recognised_singleton rfl rfl rfl rfl

/-- A backend whose deletions come to a given outcome. -/
def deletingBackend (outcome : Outcome Bool) : Backend Unit :=
  { emptyBackend with deleteNode := fun _ s => { outcome, after := s } }

/-- What the request asks of it. -/
def deletion (outcome : Outcome Bool) : Mutation Unit :=
  ⟨.deleteNode (str "A"), (deletingBackend outcome).deleteNode (str "A"), .deleteNodeResponse⟩

theorem reportsOutcome_iff_deleted :
    ReportsOutcome (deletingBackend (.ok true)) ⟨[], 1⟩ [deletionRequest] 1 (deletion (.ok true))
      idleStreams :=
  (reportsOutcome_iff rfl recognised_deletion rfl).mpr rfl

/-- A deletion that is refused is reported to have succeeded; one that throws is not
answered at all. -/
theorem not_reportsOutcome_refused :
    ¬ReportsOutcome (deletingBackend (.ok false)) ⟨[], 1⟩ [deletionRequest] 1 (deletion (.ok false))
        idleStreams ∧
      ¬ReportsOutcome (deletingBackend (.error (.runtimeError []))) ⟨[], 1⟩ [deletionRequest] 1
        (deletion (.error (.runtimeError []))) idleStreams := by
  constructor
  · intro h
    have hTrue := outcome_of_reportsOutcome (B := deletingBackend (.ok false)) rfl recognised_deletion rfl h
    cases hTrue
  · intro h
    have hTrue := outcome_of_reportsOutcome (B := deletingBackend (.error (.runtimeError []))) rfl
      recognised_deletion rfl h
    cases hTrue

end Report

end ServerRoute
end Wwatp
