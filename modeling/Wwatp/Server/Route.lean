import Wwatp.Cxx.Effects
import Wwatp.Journal.Protocol
import Wwatp.Message.ServerMessage
import Wwatp.Transport.StreamTables

/-! `Http3ServerRoute`: each stream collects the chunks of one request, serves it on the
backend when it is complete, and is closed after its response. -/
namespace Wwatp

open Cxx

/-- What a call of a backend comes to. `journaled` are the changes it reported to the
callback that the route has registered. -/
structure BackendReply (σ α : Type) where
  outcome : Outcome α
  after : σ
  journaled : List (Str × Option TreeNode) := []

/-- The functions of a `Backend` that a route calls, on the state `σ` of the backend. -/
structure Backend (σ : Type) where
  getNode : Str → σ → Outcome (Option TreeNode)
  upsertNode : List TreeNode → σ → BackendReply σ Bool
  deleteNode : Str → σ → BackendReply σ Bool
  getPageTree : Str → σ → Outcome (List TreeNode)
  queryNodes : Str → σ → Outcome (List TreeNode)
  openTransactionLayer : TreeNode → σ → BackendReply σ Bool
  closeTransactionLayers : σ → BackendReply σ Bool
  applyTransaction : Transaction → σ → BackendReply σ Bool
  getFullTree : σ → Outcome (List TreeNode)
  registerNodeListener : Str → Str → Bool → σ → BackendReply σ Unit
  notifyListeners : Str → Option TreeNode → σ → BackendReply σ Unit
  processNotifications : σ → BackendReply σ Unit

/-- A call that a route has made on its backend. -/
inductive BackendCall
  | getNode (labelRule : Str)
  | upsertNode (nodes : List TreeNode)
  | deleteNode (labelRule : Str)
  | getPageTree (pageNodeLabelRule : Str)
  | queryNodes (labelRule : Str)
  | openTransactionLayer (node : TreeNode)
  | closeTransactionLayers
  | applyTransaction (transaction : Transaction)
  | getFullTree
  | registerNodeListener (listenerName labelRule : Str) (childNotify : Bool)
  | notifyListeners (labelRule : Str) (node : Option TreeNode)
  | processNotifications
  deriving DecidableEq

/-- The signal of the request for the call. -/
def BackendCall.signal : BackendCall → UInt8
  | getNode _ => 0x07
  | upsertNode _ => 0x09
  | deleteNode _ => 0x0B
  | getPageTree _ => 0x0D
  | queryNodes _ => 0x0F
  | openTransactionLayer _ => 0x11
  | closeTransactionLayers => 0x13
  | applyTransaction _ => 0x15
  | getFullTree => 0x17
  | registerNodeListener _ _ _ => 0x19
  | notifyListeners _ _ => 0x1D
  | processNotifications => 0x1F

/-- A route with its backend. `backendCalls` keeps the calls made on the backend. -/
structure ServerRoute (σ : Type) where
  backend : σ
  backendCalls : List BackendCall
  journal : Http3ServerRoute
  listeningLabels : Std.ExtTreeMap Str Bool
  url : Str
  mutablePageLabelRule : Str

namespace ServerRoute

variable {σ α : Type}

def create (backend : σ) (maxJournalSize : ℕ) (url mutablePageLabelRule : Str) : ServerRoute σ where
  backend := backend
  backendCalls := []
  journal := .create maxJournalSize
  listeningLabels := ∅
  url := url
  mutablePageLabelRule := mutablePageLabelRule

/-- A call on the backend; what it reports is journaled. -/
def call (call : BackendCall) (operation : σ → BackendReply σ α) : Effectful (ServerRoute σ) α :=
  fun route =>
    let reply := operation route.backend
    (reply.outcome, { route with
      backend := reply.after
      backendCalls := route.backendCalls ++ [call]
      journal := reply.journaled.foldl (fun journal change => journal.journalCallback change.1 change.2)
        route.journal })

/-- A call that leaves the backend as it is. -/
def ask (question : BackendCall) (answer : σ → Outcome α) : Effectful (ServerRoute σ) α :=
  call question fun backend => ⟨answer backend, backend, []⟩

/-- The children of the mutable page with one more, at `std::lower_bound`. -/
def insertChild (labelRule : Str) (children : List Str) : Outcome (Option (List Str)) := do
  let after ← lowerBound (fun child => decide (compare child labelRule = .lt)) children
  if after.head? = some labelRule then return none
  return some (children.take (children.length - after.length) ++ labelRule :: after)

/-- The mutable page lists every label that is listened to. -/
def maintainMutablePage (B : Backend σ) (labelRule : Str) : Effectful (ServerRoute σ) Unit := do
  let page ← Effectful.inspect fun route => .ok route.mutablePageLabelRule
  match ← ask (.getNode page) (B.getNode page) with
  | some mutablePage =>
    match ← Effectful.inspect fun _ => insertChild labelRule mutablePage.childNames with
    | none => return
    | some children =>
      let nodes := [{ mutablePage with childNames := children }]
      let _ ← call (.upsertNode nodes) (B.upsertNode nodes)
  | none =>
    let nodes := [{ labelRule := page, childNames := [labelRule] }]
    let _ ← call (.upsertNode nodes) (B.upsertNode nodes)

/-- The label is not listened to, or only without its children. -/
def addsListener (route : ServerRoute σ) (labelRule : Str) (childNotify : Bool) : Bool :=
  match route.listeningLabels[labelRule]? with
  | none => true
  | some known => childNotify && !known

/-- The case `SIGNAL_WWATP_REGISTER_LISTENER_REQUEST`, after the request is decoded. -/
def registerListener (B : Backend σ) (labelRule : Str) (childNotify : Bool) :
    Effectful (ServerRoute σ) Unit := do
  if ← Effectful.inspect fun route => .ok (route.addsListener labelRule childNotify) then
    Effectful.change fun route =>
      { route with listeningLabels := route.listeningLabels.insert labelRule childNotify }
    let url ← Effectful.inspect fun route => .ok route.url
    call (.registerNodeListener url labelRule childNotify) (B.registerNodeListener url labelRule childNotify)
    maintainMutablePage B labelRule

/-- The request that a complete message holds is decoded and carried out; the result
is the response to encode. -/
def answer (B : Backend σ) (m : HTTP3TreeMessage) : Effectful (ServerRoute σ) MessageCall :=
  match m.signal with
  | 0x07 => do
    let labelRule ← Effectful.inspect fun _ => m.decodeGetNodeRequest
    let node ← ask (.getNode labelRule) (B.getNode labelRule)
    return .getNodeResponse node
  | 0x09 => do
    let nodes ← Effectful.inspect fun _ => m.decodeUpsertNodeRequest
    let _ ← call (.upsertNode nodes) (B.upsertNode nodes)
    return .upsertNodeResponse true
  | 0x0B => do
    let labelRule ← Effectful.inspect fun _ => m.decodeDeleteNodeRequest
    let _ ← call (.deleteNode labelRule) (B.deleteNode labelRule)
    return .deleteNodeResponse true
  | 0x0D => do
    let pageNodeLabelRule ← Effectful.inspect fun _ => m.decodeGetPageTreeRequest
    let nodes ← ask (.getPageTree pageNodeLabelRule) (B.getPageTree pageNodeLabelRule)
    return .getPageTreeResponse nodes
  | 0x0F => do
    let labelRule ← Effectful.inspect fun _ => m.decodeGetQueryNodesRequest
    let nodes ← ask (.queryNodes labelRule) (B.queryNodes labelRule)
    return .getQueryNodesResponse nodes
  | 0x11 => do
    let node ← Effectful.inspect fun _ => m.decodeOpenTransactionLayerRequest
    let _ ← call (.openTransactionLayer node) (B.openTransactionLayer node)
    return .openTransactionLayerResponse true
  | 0x13 => do
    let _ ← call .closeTransactionLayers B.closeTransactionLayers
    return .closeTransactionLayersResponse true
  | 0x15 => do
    let transaction ← Effectful.inspect fun _ => m.decodeApplyTransactionRequest
    let _ ← call (.applyTransaction transaction) (B.applyTransaction transaction)
    return .applyTransactionResponse true
  | 0x17 => do
    let nodes ← ask .getFullTree B.getFullTree
    return .getFullTreeResponse nodes
  | 0x19 => do
    let (_, labelRule, childNotify) ←
      Effectful.inspect fun _ => m.decodeRegisterNodeListenerRequest
    registerListener B labelRule (← Effectful.inspect fun _ => writtenValue childNotify)
    return .registerNodeListenerResponse true
  | 0x1B => do
    let _ ← Effectful.inspect fun _ => m.decodeDeregisterNodeListenerRequest
    -- "Deregestering the listener is not supported"
    return .deregisterNodeListenerResponse false
  | 0x1D => do
    let (labelRule, node) ← Effectful.inspect fun _ => m.decodeNotifyListenersRequest
    call (.notifyListeners labelRule node) (B.notifyListeners labelRule node)
    return .notifyListenersResponse true
  | 0x1F => do
    call .processNotifications B.processNotifications
    return .processNotificationResponse
  | 0x21 => do
    let lastNotification ← Effectful.inspect fun _ => m.decodeGetJournalRequest
    let notifications ← Effectful.inspect fun route => route.journal.getJournal lastNotification
    return .getJournalResponse notifications
  | _ => Effectful.raise (.invalidArgument (str "Unknown signal"))

end ServerRoute

/-- The `encode_...Response` methods: the response's signal takes the place of the
request's before anything is encoded. -/
def HTTP3TreeMessage.encodeResponse {ρ : Type} (response : MessageCall) :
    Effectful (ρ × HTTP3TreeMessage) Unit := do
  Effectful.change fun (route, m) => (route, { m with signal := response.signal })
  let encoded ← Effectful.inspect fun (_, m) => response.encode m.requestId
  Effectful.change fun (route, m) =>
    (route, { m with responseChunks := m.responseChunks ++ encoded, responseComplete := true })

/-- `get_signal<payload_chunk_header>().signal` is the one of a heartbeat. -/
def SharedSpan.isHeartbeat (s : SharedSpan) : Outcome Bool := do
  return (← s.getPayloadSignal).signal = 0x02

/-- A route and the messages of its streams, `ongoingResponses_`. -/
structure RouteStreams (σ : Type) where
  route : ServerRoute σ
  ongoingResponses : StreamIdentifier → Option HTTP3TreeMessage

namespace ServerRoute

variable {σ : Type}

/-- `answer` for the message that is being served. -/
def answerMessage (B : Backend σ) : Effectful (ServerRoute σ × HTTP3TreeMessage) MessageCall :=
  fun (route, m) =>
    let (outcome, route) := answer B m route
    (outcome, (route, m))

def buildResponseChunks (B : Backend σ) : Effectful (ServerRoute σ × HTTP3TreeMessage) Unit := do
  HTTP3TreeMessage.encodeResponse (← answerMessage B)

/-- The body of the loop over the chunks of a request: heartbeats are skipped. -/
def pushChunk {ρ : Type} (chunk : SharedSpan) : Effectful (ρ × HTTP3TreeMessage) Unit := do
  if ← Effectful.inspect fun _ => chunk.isHeartbeat then return
  let m ← Effectful.inspect fun (_, m) => m.pushRequestChunk chunk
  Effectful.change fun (route, _) => (route, m)

/-- `popResponseChunk` until there is no chunk left. -/
def popResponseChunks (m : HTTP3TreeMessage) : List SharedSpan × HTTP3TreeMessage :=
  match _h : m.responseChunks with
  | [] => ([], m.popResponseChunk.2)
  | chunk :: _ =>
    let (more, m) := popResponseChunks m.popResponseChunk.2
    (chunk :: more, m)
termination_by m.responseChunks.length
decreasing_by simp [HTTP3TreeMessage.popResponseChunk, _h]

/-- The response as it goes out. -/
def takeResponse {ρ : Type} : Effectful (ρ × HTTP3TreeMessage) (List SharedSpan) := fun (route, m) =>
  let (response, m) := popResponseChunks m
  (.ok response, (route, m))

/-- The part of `processResponseStream` for a message that is not finished. -/
def serve (B : Backend σ) (request : List SharedSpan) :
    Effectful (ServerRoute σ × HTTP3TreeMessage) (List SharedSpan) := do
  Effectful.forEach pushChunk request
  let m ← Effectful.inspect fun (_, m) => .ok m
  if !m.requestComplete then return []
  if !m.responseComplete then buildResponseChunks B
  takeResponse

/-- Whether a request asks for the cleanup of a finished stream. -/
def asksForCleanup : List SharedSpan → Outcome Bool
  | [chunk] => if chunk.signalType = 1 then chunk.isCloseStream else .ok false
  | _ => .ok false

/-- `intializeResponseMessage`. -/
def initializeResponseMessage (stream : StreamIdentifier) (front : SharedSpan) :
    Outcome HTTP3TreeMessage := do
  if stream.logicalId ≠ (← front.getRequestId) then
    throw (.invalidArgument (str "Stream logical ID does not match request ID"))
  return { requestId := stream.logicalId, signal := ← front.getSignalSignal }

/-- `processResponseStream` once the stream has a message. -/
def continueStream (B : Backend σ) (stream : StreamIdentifier) (request : List SharedSpan)
    (m : HTTP3TreeMessage) : Effectful (RouteStreams σ) (List SharedSpan) := fun s =>
  if m.processingFinished then
    match asksForCleanup request with
    | .error fault => (.error fault, s)
    | .ok cleanup =>
      (.ok [closeStream stream], if cleanup then
        { s with ongoingResponses := Function.update s.ongoingResponses stream none }
      else s)
  else
    let (outcome, route, m) := serve B request (s.route, m)
    (outcome, ⟨route, Function.update s.ongoingResponses stream (some m)⟩)

def processResponseStream (B : Backend σ) (stream : StreamIdentifier) (request : List SharedSpan) :
    Effectful (RouteStreams σ) (List SharedSpan) := fun s =>
  match s.ongoingResponses stream with
  | some m => continueStream B stream request m s
  | none =>
    match request with
    | [] => (.ok [], s)
    | front :: _ =>
      match initializeResponseMessage stream front with
      | .error fault => (.error fault, s)
      | .ok m => continueStream B stream request m
          { s with ongoingResponses := Function.update s.ongoingResponses stream (some m) }

/-- Successive calls of `processResponseStream` for one stream; the result is what each
of them returned. -/
def processBatches (B : Backend σ) (stream : StreamIdentifier) :
    List (List SharedSpan) → Effectful (RouteStreams σ) (List (List SharedSpan))
  | [] => pure []
  | batch :: rest => do
    let response ← processResponseStream B stream batch
    let more ← processBatches B stream rest
    return response :: more

end ServerRoute

end Wwatp
