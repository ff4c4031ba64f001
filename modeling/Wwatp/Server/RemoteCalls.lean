import Wwatp.Message.Delivery
import Wwatp.Server.StreamReuse

/-! Calls over the network: a client's requests go out in chunks, a route decodes them, carries them out on its
backend and encodes the responses, and the client decodes these. -/
namespace Wwatp

open Cxx

/-- Two requests that differ at most in how the property data of their nodes is cut. Of a journal request only the
number counts. -/
def MessageCall.SameRequest : MessageCall → MessageCall → Prop
  | .upsertNodeRequest a, .upsertNodeRequest b => List.Forall₂ TreeNode.SameNode a b
  | .openTransactionLayerRequest a, .openTransactionLayerRequest b => a.SameNode b
  | .applyTransactionRequest a, .applyTransactionRequest b => SameTransaction a b
  | .notifyListenersRequest labelRule a, .notifyListenersRequest other b => labelRule = other ∧ SameMaybeNode a b
  | .getJournalRequest a, .getJournalRequest b => a.number = b.number
  | a, b => a = b

theorem SameMaybeNode.refl (node : Option TreeNode) : SameMaybeNode node node := by
  cases node with
  | none => exact .none
  | some node => exact .some (.refl node)

theorem SameTransaction.refl (transaction : Transaction) : SameTransaction transaction transaction :=
  List.forall₂_same.mpr fun _ _ => List.forall₂_same.mpr fun v _ => ⟨rfl, rfl, .refl v.node⟩

theorem MessageCall.SameRequest.refl (request : MessageCall) : request.SameRequest request := by
  cases request with
  | upsertNodeRequest nodes => exact List.forall₂_same.mpr fun node _ => TreeNode.SameNode.refl node
  | openTransactionLayerRequest node => exact TreeNode.SameNode.refl node
  | applyTransactionRequest transaction => exact SameTransaction.refl transaction
  | notifyListenersRequest labelRule node => exact ⟨rfl, SameMaybeNode.refl node⟩
  | _ => rfl

namespace ServerRoute

variable {σ : Type}

/-- A request that is carried out without a message: the route's own call of the backend, and the response to it. -/
def carryOut (B : Backend σ) : MessageCall → Effectful (ServerRoute σ) MessageCall
  | .getNodeRequest labelRule => do
    let node ← ask (.getNode labelRule) (B.getNode labelRule)
    return .getNodeResponse node
  | .upsertNodeRequest nodes => do
    let _ ← call (.upsertNode nodes) (B.upsertNode nodes)
    return .upsertNodeResponse true
  | .deleteNodeRequest labelRule => do
    let _ ← call (.deleteNode labelRule) (B.deleteNode labelRule)
    return .deleteNodeResponse true
  | .getPageTreeRequest pageNodeLabelRule => do
    let nodes ← ask (.getPageTree pageNodeLabelRule) (B.getPageTree pageNodeLabelRule)
    return .getPageTreeResponse nodes
  | .getQueryNodesRequest labelRule => do
    let nodes ← ask (.queryNodes labelRule) (B.queryNodes labelRule)
    return .getQueryNodesResponse nodes
  | .openTransactionLayerRequest node => do
    let _ ← call (.openTransactionLayer node) (B.openTransactionLayer node)
    return .openTransactionLayerResponse true
  | .closeTransactionLayersRequest => do
    let _ ← call .closeTransactionLayers B.closeTransactionLayers
    return .closeTransactionLayersResponse true
  | .applyTransactionRequest transaction => do
    let _ ← call (.applyTransaction transaction) (B.applyTransaction transaction)
    return .applyTransactionResponse true
  | .getFullTreeRequest => do
    let nodes ← ask .getFullTree B.getFullTree
    return .getFullTreeResponse nodes
  | .registerNodeListenerRequest _ labelRule childNotify => do
    registerListener B labelRule childNotify
    return .registerNodeListenerResponse true
  | .deregisterNodeListenerRequest _ _ => pure (.deregisterNodeListenerResponse false)
  | .notifyListenersRequest labelRule node => do
    call (.notifyListeners labelRule node) (B.notifyListeners labelRule node)
    return .notifyListenersResponse true
  | .processNotificationRequest => do
    call .processNotifications B.processNotifications
    return .processNotificationResponse
  | .getJournalRequest lastNotification => do
    let notifications ← Effectful.inspect fun route => route.journal.getJournal lastNotification
    return .getJournalResponse notifications
  | _ => Effectful.raise (.invalidArgument (str "Unknown signal"))

section Served

variable {B : Backend σ} {request : MessageCall} {m : HTTP3TreeMessage} {route : ServerRoute σ}

/-- What is decoded from a message is carried out. -/
theorem answer_of_returns (hKind : request.isRequest = true) (hSignal : m.signal = request.signal)
    (h : request.Returns m) : ∃ sent, MessageCall.SameRequest sent request ∧ ∀ route : ServerRoute σ,
      answer B m route = carryOut B sent route := by
  cases request with
  | getNodeRequest labelRule | deleteNodeRequest labelRule | getPageTreeRequest labelRule
  | getQueryNodesRequest labelRule =>
      refine ⟨_, .refl _, fun route => ?_⟩
      simp only [answer, hSignal, MessageCall.signal]
      exact Effectful.bind_inspect h
  | upsertNodeRequest nodes =>
      obtain ⟨found, hDecode, hSame⟩ := h
      refine ⟨.upsertNodeRequest found, hSame, fun route => ?_⟩
      simp only [answer, hSignal, MessageCall.signal]
      exact Effectful.bind_inspect hDecode
  | openTransactionLayerRequest node =>
      obtain ⟨found, hDecode, hSame⟩ := h
      refine ⟨.openTransactionLayerRequest found, hSame, fun route => ?_⟩
      simp only [answer, hSignal, MessageCall.signal]
      exact Effectful.bind_inspect hDecode
  | applyTransactionRequest transaction =>
      obtain ⟨found, hDecode, hSame⟩ := h
      refine ⟨.applyTransactionRequest found, hSame, fun route => ?_⟩
      simp only [answer, hSignal, MessageCall.signal]
      exact Effectful.bind_inspect hDecode
  | closeTransactionLayersRequest | getFullTreeRequest | processNotificationRequest =>
      refine ⟨_, .refl _, fun route => ?_⟩
      simp only [answer, hSignal, MessageCall.signal]
      rfl
  | registerNodeListenerRequest listenerName labelRule childNotify =>
      refine ⟨_, .refl _, fun route => ?_⟩
      simp only [answer, hSignal, MessageCall.signal]
      exact Effectful.bind_inspect (f := fun _ => m.decodeRegisterNodeListenerRequest) h
  | deregisterNodeListenerRequest listenerName labelRule =>
      refine ⟨_, .refl _, fun route => ?_⟩
      simp only [answer, hSignal, MessageCall.signal]
      exact Effectful.bind_inspect h
  | notifyListenersRequest labelRule node =>
      obtain ⟨found, hDecode, hSame⟩ := h
      refine ⟨.notifyListenersRequest labelRule found, ⟨rfl, hSame⟩, fun route => ?_⟩
      simp only [answer, hSignal, MessageCall.signal]
      exact Effectful.bind_inspect (f := fun _ => m.decodeNotifyListenersRequest) hDecode
  | getJournalRequest lastNotification =>
      refine ⟨.getJournalRequest ⟨lastNotification.number, [], none⟩, rfl, fun route => ?_⟩
      simp only [answer, hSignal, MessageCall.signal]
      exact Effectful.bind_inspect h
  | _ => cases hKind

/-- The response to a message that is carried out, as it is encoded. -/
theorem buildResponseChunks_answered {route' : ServerRoute σ} {response : MessageCall} {encoded : List SharedSpan}
    (hAnswer : answer B m route = (.ok response, route')) (hEncode : response.encode m.requestId = .ok encoded) :
    buildResponseChunks B (route, m) = (.ok (), (route', { m with
      signal := response.signal
      responseChunks := m.responseChunks ++ encoded
      responseComplete := true })) := by
  have hMessage : answerMessage B (route, m) = (.ok response, (route', m)) := by
    simp only [answerMessage, hAnswer]
  rw [buildResponseChunks, Effectful.bind_ok hMessage]
  exact Effectful.bind_inspect (f := fun s : ServerRoute σ × HTTP3TreeMessage => response.encode s.2.requestId)
    (s := (route', { m with signal := response.signal })) hEncode

/-- The chunks of a request keep the identifier it was made for. -/
theorem pushRequestChunks_requestId {m after : HTTP3TreeMessage} {requestId : UInt16} {chunks : List SharedSpan}
    (hIds : ∀ chunk ∈ chunks, chunk.getRequestId = .ok requestId) (hId : m.requestId = requestId)
    (h : m.pushRequestChunks chunks = .ok after) : after.requestId = requestId := by
  induction chunks generalizing m with
  | nil => exact (Except.ok.inj h) ▸ hId
  | cons chunk rest ih =>
      obtain ⟨next, hNext, hRest⟩ := Outcome.bind_eq_ok.mp h
      refine ih (fun c hc => hIds c (List.mem_cons_of_mem chunk hc)) ?_ hRest
      rw [HTTP3TreeMessage.pushRequestChunk] at hNext
      obtain ⟨signal, -, hNext⟩ := Outcome.bind_eq_ok.mp hNext
      obtain ⟨adopted, hAdopted, hNext⟩ := Outcome.bind_eq_ok.mp hNext
      obtain ⟨found, -, hNext⟩ := Outcome.bind_eq_ok.mp hNext
      have hSame : adopted.requestId = requestId := by
        rw [HTTP3TreeMessage.adoptRequestId, hIds chunk List.mem_cons_self] at hAdopted
        split_ifs at hAdopted
        · obtain rfl := Except.ok.inj hAdopted
          rfl
        · obtain rfl := Except.ok.inj hAdopted
          exact hId
      obtain rfl := Except.ok.inj hNext
      split_ifs <;> exact hSame

/-- The first chunk of a request makes the message that the others complete. -/
theorem recognised_encode {stream : StreamIdentifier} {chunks : List SharedSpan} (hKind : request.isRequest = true)
    (h : request.Deliverable) (hEncode : request.encode stream.logicalId = .ok chunks)
    (hSize : chunks.length < 2 ^ 64) : ∃ done, Recognised stream chunks done ∧ done.signal = request.signal ∧
      done.requestId = stream.logicalId ∧ request.Returns done := by
  let initial : HTTP3TreeMessage := { requestId := stream.logicalId, signal := request.signal }
  have hEncoded := request.encode_encodedFor hEncode
  have hPush (chunks : List SharedSpan) : request.push initial chunks = initial.pushRequestChunks chunks := by
    rw [MessageCall.push, if_pos hKind]
  have hComplete (m : HTTP3TreeMessage) : request.isComplete m = m.requestComplete := by
    rw [MessageCall.isComplete, if_pos hKind]
  have hEmpty : request.chunksIn initial = [] := by rw [MessageCall.chunksIn, if_pos hKind]
  obtain ⟨hPart, done, hDone, hChunks, hEnd⟩ := MessageCall.push_completes h hEncode hSize hEmpty (hComplete initial)
  rw [hPush] at hDone
  have hNe : ∃ first rest, chunks = first :: rest := by
    refine List.exists_cons_of_ne_nil ?_
    rintro rfl
    obtain rfl := Except.ok.inj hDone
    rw [hComplete] at hEnd
    cases hEnd
  obtain ⟨first, rest, hFirst⟩ := hNe
  have hMem : first ∈ chunks := hFirst ▸ List.mem_cons_self
  obtain ⟨-, hSignal, hId⟩ := MessageCall.getSignalSignal_of_encodedFor hEncoded hMem
  have hSame := HTTP3TreeMessage.pushRequestChunks_sameResponse hDone
  refine ⟨done, ⟨fun chunk hChunk => ?_, first, rest, initial, hFirst, ?_, hDone, ?_, ?_⟩, hSame.signal, ?_,
    MessageCall.returns_of_chunks h hEncode hSize hChunks hEnd⟩
  · obtain ⟨dataLength, data, rfl⟩ := hEncoded chunk hChunk
    have hNot : request.signal ≠ 0x02 := by cases request <;> simp [MessageCall.signal]
    simp [SharedSpan.isHeartbeat, SharedSpan.getPayloadSignal_ofSignal, hNot]
  · rw [initializeResponseMessage, hId, hSignal]
    simp [initial]
  · rw [← hComplete]
    exact hEnd
  · rintro front back rfl hMore
    obtain ⟨next, hNext, -, hOpen⟩ := hPart front back rfl hMore
    rw [hPush] at hNext
    rw [hComplete] at hOpen
    exact ⟨next, hNext, hOpen⟩
  · exact pushRequestChunks_requestId (fun chunk hChunk =>
      (MessageCall.getSignalSignal_of_encodedFor hEncoded hChunk).2.2) rfl hDone

end Served

end ServerRoute
end Wwatp
