import Wwatp.Server.RemoteCalls

/-! The chunks of several requests arrive on their streams in any order of batches. Each request is carried out when its
last chunk arrives, and answered as if it were the only one at that time. -/
namespace Wwatp

open Cxx

namespace ServerRoute

variable {σ : Type}

/-- What arrives on a stream, or goes out on it, in order. -/
def batchesOf (stream : StreamIdentifier) (arrivals : List (StreamIdentifier × List SharedSpan)) : List (List SharedSpan) :=
  (arrivals.filter fun arrival => arrival.1 = stream).map Prod.snd

/-- A request on its stream, and the message that its chunks come to. -/
structure Waiting where
  stream : StreamIdentifier
  chunks : List SharedSpan
  message : HTTP3TreeMessage

/-- How far a stream is with the batches that are still to come: it has no message yet, or one that they complete. -/
inductive Progress (s : RouteStreams σ) (w : Waiting) (batches : List (List SharedSpan)) : Prop
  | idle (hIdle : s.ongoingResponses w.stream = none) (hRequest : Recognised w.stream w.chunks w.message)
      (hSplit : SplitOf w.chunks batches)
  | receiving (m : HTTP3TreeMessage) (hMessage : s.ongoingResponses w.stream = some m)
      (hOpen : m.processingFinished = false) (hPending : m.requestComplete = false) (hFresh : m.responseComplete = false)
      (hNone : m.responseChunks = []) (hPayload : ∀ chunk ∈ payloads batches.flatten, chunk.isHeartbeat = .ok false)
      (hCompletes : m.CompletesAtLast (payloads batches.flatten) w.message)

/-- The response of the stream has been taken. -/
def Finished (s : RouteStreams σ) (stream : StreamIdentifier) : Prop :=
  ∃ m, s.ongoingResponses stream = some m ∧ m.processingFinished = true

section Batches

variable {stream other : StreamIdentifier} {batch : List SharedSpan} {arrivals : List (StreamIdentifier × List SharedSpan)}

@[simp] theorem batchesOf_nil : batchesOf stream [] = [] := rfl

theorem payloads_flatten_cons (batch : List SharedSpan) (batches : List (List SharedSpan)) :
    payloads (batch :: batches).flatten = payloads batch ++ payloads batches.flatten := by
  simp [payloads]

end Batches

section Steps

variable {B : Backend σ} {s : RouteStreams σ} {w : Waiting} {stream : StreamIdentifier} {batch : List SharedSpan}
  {batches : List (List SharedSpan)}

/-- What a stream has made of the batches so far does not depend on the other streams. -/
theorem Progress.congr {t : RouteStreams σ} (h : Progress s w batches)
    (hSame : t.ongoingResponses w.stream = s.ongoingResponses w.stream) : Progress t w batches := by
  cases h with
  | idle hIdle hRequest hSplit => exact .idle (hSame.trans hIdle) hRequest hSplit
  | receiving m hMessage hOpen hPending hFresh hNone hPayload hCompletes =>
      exact .receiving m (hSame.trans hMessage) hOpen hPending hFresh hNone hPayload hCompletes

theorem Finished.congr {t : RouteStreams σ} (h : Finished s stream)
    (hSame : t.ongoingResponses stream = s.ongoingResponses stream) : Finished t stream := by
  obtain ⟨m, hMessage, hFinished⟩ := h
  exact ⟨m, hSame.trans hMessage, hFinished⟩

/-- The first batch of a stream is processed like one that finds the message it makes. -/
theorem Progress.start (h : Progress s w (batch :: batches)) : ∃ t : RouteStreams σ, t.route = s.route ∧
    (∀ other, other ≠ w.stream → t.ongoingResponses other = s.ongoingResponses other) ∧
    processResponseStream B w.stream batch s = processResponseStream B w.stream batch t ∧
    ∃ m, t.ongoingResponses w.stream = some m ∧ m.processingFinished = false ∧ m.requestComplete = false ∧
      m.responseComplete = false ∧ m.responseChunks = [] ∧
      (∀ chunk ∈ payloads (batch :: batches).flatten, chunk.isHeartbeat = .ok false) ∧
      m.CompletesAtLast (payloads (batch :: batches).flatten) w.message := by
  cases h with
  | receiving m hMessage hOpen hPending hFresh hNone hPayload hCompletes =>
      exact ⟨s, rfl, fun _ _ => rfl, rfl, m, hMessage, hOpen, hPending, hFresh, hNone, hPayload, hCompletes⟩
  | idle hIdle hRequest hSplit =>
      obtain ⟨first, rest, m, hFirst, hInitial, hCompletes⟩ := hRequest.completes
      obtain ⟨signal, rfl⟩ := initializeResponseMessage_ok hInitial
      have hBegins : batch.head? = some first := hSplit.begins.trans (congrArg List.head? hFirst)
      obtain ⟨more, rfl⟩ : ∃ more, batch = first :: more := by
        cases batch with
        | nil => cases hBegins
        | cons front more => exact ⟨more, by rw [Option.some.inj hBegins]⟩
      refine ⟨{ s with ongoingResponses := Function.update s.ongoingResponses w.stream (some _) }, rfl,
        fun other hOther => Function.update_of_ne hOther _ _, processResponseStream_initial hIdle hInitial, _,
        Function.update_self .., rfl, rfl, rfl, rfl, ?_, ?_⟩
      · rw [hSplit.chunks]
        exact hRequest.payload
      · rw [hSplit.chunks]
        exact hCompletes

/-- A batch with more of the request to come is kept. -/
theorem Progress.quiet (h : Progress s w (batch :: batches)) (hMore : payloads batches.flatten ≠ []) :
    ∃ after, processResponseStream B w.stream batch s = (.ok [], after) ∧ after.route = s.route ∧
      Progress after w batches := by
  obtain ⟨t, hRoute, -, hSame, m, hMessage, hOpen, hPending, hFresh, hNone, hPayload, hCompletes⟩ := h.start (B := B)
  rw [payloads_flatten_cons] at hPayload hCompletes
  have hNow : ∀ chunk ∈ payloads batch, chunk.isHeartbeat = .ok false := fun c hc => hPayload c (List.mem_append_left _ hc)
  obtain ⟨next, hNext, hNot⟩ := hCompletes.before _ _ rfl hMore
  have hKeeps := HTTP3TreeMessage.pushRequestChunks_sameResponse hNext
  have hServe : serve B batch (t.route, m) = _ := serve_incomplete hNow hNext hNot
  refine ⟨_, hSame.trans (processResponseStream_ongoing hMessage hOpen hServe), hRoute, ?_⟩
  exact .receiving next (Function.update_self ..) (hKeeps.processingFinished.trans hOpen) hNot
    (hKeeps.responseComplete.trans hFresh) (hKeeps.responseChunks.trans hNone)
    (fun c hc => hPayload c (List.mem_append_right _ hc)) (hCompletes.append hNext)

/-- The batch with the last chunks makes the route carry the request out. -/
theorem Progress.last (h : Progress s w (batch :: batches)) (hLast : payloads batches.flatten = [])
    {route' : ServerRoute σ} {response : MessageCall} {encoded : List SharedSpan}
    (hAnswer : answer B w.message s.route = (.ok response, route'))
    (hEncode : response.encode w.message.requestId = .ok encoded) :
    ∃ after, processResponseStream B w.stream batch s = (.ok encoded, after) ∧ after.route = route' ∧
      Finished after w.stream := by
  obtain ⟨t, hRoute, -, hSame, m, hMessage, hOpen, hPending, hFresh, hNone, hPayload, hCompletes⟩ := h.start (B := B)
  rw [payloads_flatten_cons, hLast, List.append_nil] at hPayload hCompletes
  have hKeeps := HTTP3TreeMessage.pushRequestChunks_sameResponse hCompletes.pushed
  rw [← hRoute] at hAnswer
  have hBuild := buildResponseChunks_answered hAnswer hEncode
  have hServe := serve_complete hPayload hCompletes.pushed hCompletes.complete (hKeeps.responseComplete.trans hFresh) hBuild
  rw [show w.message.responseChunks = [] from hKeeps.responseChunks.trans hNone, List.nil_append] at hServe
  refine ⟨_, hSame.trans (processResponseStream_ongoing hMessage hOpen hServe), rfl, _, Function.update_self .., ?_⟩
  simp [finishedMessage, popResponseChunks_eq]

end Steps

section Runs

variable {B : Backend σ} {s : RouteStreams σ} {w : Waiting} {stream : StreamIdentifier} {batch : List SharedSpan}
  {batches : List (List SharedSpan)} {arrivals rest outputs : List (StreamIdentifier × List SharedSpan)}

end Runs

/-- A call over the network: a request, encoded for the stream it is sent on. -/
structure RemoteCall where
  stream : StreamIdentifier
  request : MessageCall
  chunks : List SharedSpan

structure RemoteCall.Sent (c : RemoteCall) : Prop where
  kind : c.request.isRequest = true
  deliverable : c.request.Deliverable
  encoded : c.request.encode c.stream.logicalId = .ok c.chunks
  size : c.chunks.length < 2 ^ 64

/-- The reply can be sent on the stream. -/
structure Sendable (c : RemoteCall) (reply : MessageCall) : Prop where
  deliverable : reply.Deliverable
  encoded : ∃ encoded, reply.encode c.stream.logicalId = .ok encoded ∧ encoded.length < 2 ^ 64

section Remote

variable {B : Backend σ} {s : RouteStreams σ} {calls : List RemoteCall}
  {arrivals : List (StreamIdentifier × List SharedSpan)}

/-- What the server takes a call for: the message its chunks come to, and the request that is decoded from it. -/
structure Decoded (B : Backend σ) (c : RemoteCall) (m : HTTP3TreeMessage) (sent : MessageCall) : Prop where
  recognised : Recognised c.stream c.chunks m
  requestId : m.requestId = c.stream.logicalId
  same : sent.SameRequest c.request
  answered : answer B m = carryOut B sent

theorem RemoteCall.Sent.decoded {c : RemoteCall} (h : c.Sent) (B : Backend σ) : ∃ m sent, Decoded B c m sent := by
  obtain ⟨m, hRecognised, hSignal, hId, hReturns⟩ := recognised_encode h.kind h.deliverable h.encoded h.size
  obtain ⟨sent, hSame, hAnswer⟩ := answer_of_returns (B := B) h.kind hSignal hReturns
  exact ⟨m, sent, hRecognised, hId, hSame, funext hAnswer⟩

end Remote

end ServerRoute
end Wwatp
