import Wwatp.Client.Resync
import Wwatp.Message.ClientMessage
import Wwatp.Server.StaticStreams
import Wwatp.Tree.Restriction

/-! A client whose backend holds one static node. The property data of the node are the bytes of a file of the server,
which the client asks for as it starts and whenever it is told to sync. -/
namespace Wwatp

open Cxx

/-- `sendCloseSignal`: the chunk behind the data of a response. -/
def endSignal : SharedSpan := .ofSignal (.signal ⟨0, 0x01⟩) []

/-- The chunks that a response that arrives in fragments leaves for its stream. -/
def arrivingChunks (fragments : List (List UInt8)) : Outcome (List SharedSpan) := do
  let received ← feedFragments (ClientStream.appendData false) .empty fragments
  return received.2 ++ [endSignal]

theorem arrivingChunks_eq (fragments : List (List UInt8)) :
    arrivingChunks fragments = .ok (fragments.map (SharedSpan.ofSignal .noChunk) ++ [endSignal]) := by
  have hFeed (partialChunk : SharedSpan) : feedFragments (ClientStream.appendData false) partialChunk fragments =
      .ok (partialChunk, fragments.map (SharedSpan.ofSignal .noChunk)) := by
    induction fragments with
    | nil => rfl
    | cons fragment rest ih =>
        rw [feedFragments, show ClientStream.appendData false partialChunk fragment = .ok (partialChunk, [.ofSignal .noChunk fragment])
          from rfl, Outcome.ok_bind]
        dsimp only
        rw [ih]
        rfl
  rw [arrivingChunks, hFeed]
  rfl

namespace HTTP3TreeMessage

/-- `popResponseChunk` until there is no chunk left. -/
def popResponseChunks (m : HTTP3TreeMessage) : List SharedSpan × HTTP3TreeMessage :=
  (m.responseChunks, { m with responseChunks := [], processingFinished := m.processingFinished || m.responseComplete })

theorem pushResponseChunks_fragments (m : HTTP3TreeMessage) {chunks : List SharedSpan} (h : ∀ c ∈ chunks, c.signalType = 0) :
    m.pushResponseChunks chunks = .ok { m with responseChunks := m.responseChunks ++ chunks } := by
  induction chunks generalizing m with
  | nil => rw [List.append_nil, pushResponseChunks]
  | cons chunk rest ih =>
      obtain ⟨hChunk, hRest⟩ := List.forall_mem_cons.mp h
      rw [pushResponseChunks, pushResponseChunk, if_pos hChunk, Outcome.ok_bind, ih _ hRest, List.append_assoc]
      rfl

theorem pushResponseChunks_append (m : HTTP3TreeMessage) (front back : List SharedSpan) :
    m.pushResponseChunks (front ++ back) = m.pushResponseChunks front >>= fun m => m.pushResponseChunks back := by
  induction front generalizing m with
  | nil => rfl
  | cons chunk rest ih =>
      rw [List.cons_append, pushResponseChunks, pushResponseChunks]
      cases m.pushResponseChunk chunk with
      | ok pushed => exact ih pushed
      | error e => rfl

theorem pushResponseChunks_closed (m : HTTP3TreeMessage) {chunks : List SharedSpan} (h : ∀ c ∈ chunks, c.signalType = 0) :
    m.pushResponseChunks (chunks ++ [endSignal]) =
      .ok { m with responseChunks := m.responseChunks ++ chunks, responseComplete := true } := by
  rw [pushResponseChunks_append, pushResponseChunks_fragments m h, Outcome.ok_bind]
  rfl

end HTTP3TreeMessage

/-- `Http3ClientBackend` with a static node. -/
structure StaticClient (Callback : Type) where
  blockingMode : Bool
  staticNode : Option TreeNode
  chunksResponse : List SharedSpan := []
  localBackend : SimpleBackend Callback

namespace StaticClient

variable {Callback : Type}

def setNodeChunks (c : StaticClient Callback) (chunks : List SharedSpan) : Outcome (StaticClient Callback) :=
  match c.staticNode with
  -- the source reports that there is no static node
  | none => .ok c
  | some node => do
    let node := { node with propertyData := .concat chunks }
    let stored ← c.localBackend.upsertNode [node]
    return { c with staticNode := some node, localBackend := stored.1 }

/-- `processHTTP3Response`, the case `OTHER_CHUNK`. A blocking client leaves the chunks to the call that waits. -/
def processOtherChunk (c : StaticClient Callback) (response : HTTP3TreeMessage) :
    Outcome (StaticClient Callback × HTTP3TreeMessage) := do
  let c := { c with chunksResponse := c.chunksResponse ++ response.popResponseChunks.1 }
  if c.blockingMode then return (c, response.popResponseChunks.2)
  else return (← c.setNodeChunks c.chunksResponse, response.popResponseChunks.2)

/-- The calls of the message handler, until it is deregistered. -/
def handleResponses (c : StaticClient Callback) (m : HTTP3TreeMessage) : List (List SharedSpan) → Outcome (StaticClient Callback)
  | [] => .ok c
  | response :: rest => do
    let m ← m.pushResponseChunks response
    if m.responseComplete then
      let processed ← c.processOtherChunk m
      if processed.2.processingFinished then return processed.1
      else handleResponses processed.1 processed.2 rest
    else handleResponses c m rest

/-- The end of `requestStaticNodeData` in blocking mode: `awaitChunksResponse` takes the chunks. -/
def awaitStaticNodeData (c : StaticClient Callback) : Outcome (StaticClient Callback) :=
  if c.blockingMode then setNodeChunks { c with chunksResponse := [] } c.chunksResponse else .ok c

/-- A request of the static node's data, whose response arrives in several batches. -/
def requestStaticNodeData (c : StaticClient Callback) (responses : List (List SharedSpan)) : Outcome (StaticClient Callback) := do
  let c ← c.handleResponses .staticNodeDataRequest responses
  c.awaitStaticNodeData

/-- A response that is complete is processed to its end. -/
theorem processOtherChunk_finished {c : StaticClient Callback} {response : HTTP3TreeMessage}
    {processed : StaticClient Callback × HTTP3TreeMessage} (hComplete : response.responseComplete = true)
    (h : c.processOtherChunk response = .ok processed) : processed.2.processingFinished = true := by
  have hFinished : response.popResponseChunks.2.processingFinished = true := by
    rw [HTTP3TreeMessage.popResponseChunks, hComplete]
    exact Bool.or_true _
  rw [processOtherChunk] at h
  split_ifs at h
  · obtain rfl := Except.ok.inj h
    exact hFinished
  · obtain ⟨after, -, hPair⟩ := Outcome.bind_eq_ok.mp h
    obtain rfl := Except.ok.inj hPair
    exact hFinished

/-- However the chunks of a response are batched, the handler processes them once, all together. -/
theorem handleResponses_eq (c : StaticClient Callback) {m : HTTP3TreeMessage} {chunks : List SharedSpan}
    (hChunks : ∀ chunk ∈ chunks, chunk.signalType = 0) (hOpen : ¬m.responseComplete = true) {responses : List (List SharedSpan)}
    (hAll : responses.flatten = chunks ++ [endSignal]) : c.handleResponses m responses =
      (c.processOtherChunk { m with responseChunks := m.responseChunks ++ chunks, responseComplete := true }).map Prod.fst := by
  induction responses generalizing m chunks with
  | nil => exact absurd hAll.symm (by simp)
  | cons response rest ih =>
      have hMore {front back : List SharedSpan} (hFront : ∀ chunk ∈ front, chunk.signalType = 0)
          (hBack : ∀ chunk ∈ back, chunk.signalType = 0) (hRest : rest.flatten = back ++ [endSignal]) :
          c.handleResponses m (front :: rest) = (c.processOtherChunk { m with
            responseChunks := m.responseChunks ++ (front ++ back), responseComplete := true }).map Prod.fst := by
        rw [handleResponses, m.pushResponseChunks_fragments hFront, Outcome.ok_bind]
        refine (if_neg hOpen).trans ?_
        have hLater := ih (m := { m with responseChunks := m.responseChunks ++ front }) hBack hOpen hRest
        rw [hLater, List.append_assoc]
      rw [List.flatten_cons] at hAll
      rcases List.append_eq_append_iff.mp hAll with ⟨more, rfl, hRest⟩ | ⟨more, rfl, hLast⟩
      · obtain ⟨hFirst, hLater⟩ := List.forall_mem_append.mp hChunks
        exact hMore hFirst hLater hRest
      · rcases List.append_eq_singleton_iff.mp hLast.symm with ⟨rfl, hRest⟩ | ⟨rfl, -⟩
        · rw [List.append_nil, hMore hChunks (fun _ hNone => absurd hNone List.not_mem_nil) hRest, List.append_nil]
        · rw [handleResponses, m.pushResponseChunks_closed hChunks, Outcome.ok_bind]
          refine (if_pos rfl).trans ?_
          cases hProcessed : c.processOtherChunk { m with
              responseChunks := m.responseChunks ++ chunks, responseComplete := true } with
          | error e => rfl
          | ok processed => exact if_pos (processOtherChunk_finished rfl hProcessed)

section Requests

variable {c : StaticClient Callback} {node : TreeNode} (hNode : c.staticNode = some node)
  (hListeners : c.localBackend.nodeListeners.Announces [node.labelRule])

include hNode hListeners

/-- The node with the data of some chunks, in the client and in its local backend. -/
def withData (c : StaticClient Callback) (node : TreeNode) (chunks chunksResponse : List SharedSpan) : StaticClient Callback where
  blockingMode := c.blockingMode
  staticNode := some { node with propertyData := .concat chunks }
  chunksResponse := chunksResponse
  localBackend := { c.localBackend with
    memoryTree := c.localBackend.memoryTree.upsertNode [{ node with propertyData := .concat chunks }] }

theorem setNodeChunks_eq (chunks : List SharedSpan) :
    c.setNodeChunks chunks = .ok (c.withData node chunks c.chunksResponse) := by
  obtain ⟨after, notices, hStored⟩ := (SimpleBackend.upsertNode_returns_iff
    [{ node with propertyData := SharedSpan.concat chunks }]).mpr hListeners
  rw [setNodeChunks, hNode]
  dsimp only
  rw [hStored, SimpleBackend.upsertNode_ok hStored]
  rfl

/-- What a request comes to: a blocking client takes the chunks of its response, and one that does not block has them behind
those of all responses before. -/
theorem requestStaticNodeData_eq {fragments : List (List UInt8)} {responses : List (List SharedSpan)}
    (hArrived : arrivingChunks fragments = .ok responses.flatten) : c.requestStaticNodeData responses =
      .ok (c.withData node (c.chunksResponse ++ fragments.map (SharedSpan.ofSignal .noChunk))
        (if c.blockingMode then [] else c.chunksResponse ++ fragments.map (SharedSpan.ofSignal .noChunk))) := by
  rw [arrivingChunks_eq, Except.ok.injEq] at hArrived
  have hFragments : ∀ chunk ∈ fragments.map (SharedSpan.ofSignal .noChunk), chunk.signalType = 0 :=
    List.forall_mem_map.mpr fun _ _ => rfl
  rw [requestStaticNodeData, handleResponses_eq c hFragments Bool.false_ne_true hArrived.symm, processOtherChunk]
  obtain ⟨blockingMode, staticNode, chunksResponse, localBackend⟩ := c
  obtain rfl : staticNode = some node := hNode
  set chunks := chunksResponse ++ fragments.map (SharedSpan.ofSignal .noChunk) with hAll
  have hSet (left : List SharedSpan) := setNodeChunks_eq (c := ⟨blockingMode, some node, left, localBackend⟩) rfl hListeners chunks
  cases blockingMode with
  | true => exact hSet []
  | false =>
      rw [if_neg Bool.false_ne_true]
      change (setNodeChunks ⟨false, some node, chunks, localBackend⟩ chunks >>= fun set => pure (set, _)).map Prod.fst >>=
        awaitStaticNodeData = _
      rw [hSet chunks]
      rfl

end Requests

/-- A client that is ready for the next request: its node may have got other data, and what it has kept of the responses is
what it shows unless it is blocking. -/
structure Ready (c : StaticClient Callback) (node : TreeNode) (kept : List SharedSpan) (after : StaticClient Callback) : Prop where
  blockingMode : after.blockingMode = c.blockingMode
  staticNode : ∃ propertyData, after.staticNode = some { node with propertyData }
  chunksResponse : after.chunksResponse = if c.blockingMode then [] else kept
  nodeListeners : after.localBackend.nodeListeners = c.localBackend.nodeListeners

/-- The client shows some chunks as the data of its node, and has told its local backend. -/
structure Shows (c : StaticClient Callback) (node : TreeNode) (chunks : List SharedSpan) (after : StaticClient Callback) : Prop
    extends Ready c node chunks after where
  shown : after.staticNode = some { node with propertyData := .concat chunks }
  stored : after.localBackend.memoryTree.getNode node.labelRule = some (TreeNode.assign { node with propertyData := .concat chunks })

variable {c after : StaticClient Callback} {node : TreeNode} {kept : List SharedSpan}

theorem Ready.request (h : Ready c node kept after) (hListeners : c.localBackend.nodeListeners.Announces [node.labelRule])
    {fragments : List (List UInt8)} {responses : List (List SharedSpan)} (hArrived : arrivingChunks fragments = .ok responses.flatten) :
    ∃ next, after.requestStaticNodeData responses = .ok next ∧
      Shows c node ((if c.blockingMode then [] else kept) ++ fragments.map (SharedSpan.ofSignal .noChunk)) next := by
  obtain ⟨propertyData, hNode⟩ := h.staticNode
  have hRequest := requestStaticNodeData_eq hNode (h.nodeListeners ▸ hListeners) hArrived
  rw [h.chunksResponse, h.blockingMode] at hRequest
  refine ⟨_, hRequest, ?_⟩
  exact {
    blockingMode := h.blockingMode
    staticNode := ⟨_, rfl⟩
    chunksResponse := rfl
    nodeListeners := h.nodeListeners
    shown := rfl
    stored := by
      rw [withData, MemoryTree.upsertNode, List.foldl_cons, List.foldl_nil, MemoryTree.getNode_set, if_pos rfl] }

section Delivery

variable {Route : Type} {server : HTTP3Server Route} {t : StreamTables} {stream : StreamIdentifier} {req : Request}
  {contents : List UInt8} {started : StreamTables × Stream} {veccnt : ℕ} {s : Sending} {sendTrailers : Bool}
  {fragments : List (List UInt8)} {responses : List (List SharedSpan)}

end Delivery

end StaticClient
end Wwatp
