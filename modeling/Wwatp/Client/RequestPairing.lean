import Wwatp.Cxx.Transitions
import Wwatp.Message.ClientMessage
import Wwatp.Server.Batching
import Wwatp.Transport.StreamIdentifiers

/-! `Http3ClientBackendUpdater::maintainRequestHandlers`: each request of a backend gets a stream
and a handler that works on the message kept for the stream. -/
namespace Wwatp

open Cxx

/-- A request that a backend has put into its list of pending requests. -/
inductive ClientRequest
  | call (operation : MessageCall) (chunks : List SharedSpan)
      (encoded : operation.encode 0 = .ok chunks)
  | staticNodeData

namespace ClientRequest

def message : ClientRequest → HTTP3TreeMessage
  | call operation chunks _ =>
    { signal := operation.signal, isInitialized := true, requestChunks := chunks }
  | staticNodeData => .staticNodeDataRequest

/-- The chunks of the request under the id of a stream. -/
def chunksFor (request : ClientRequest) (requestId : UInt16) : List SharedSpan :=
  request.message.requestChunks.map fun chunk => (chunk.setRequestId requestId).toOption.getD chunk

end ClientRequest

/-- The chunk that asks whether there is a response. -/
def heartbeat (stream : StreamIdentifier) : SharedSpan := payloadSpan stream.logicalId 0x02 []

/-- The cases of `processHTTP3Response`: each decodes the response. -/
def HTTP3TreeMessage.decodeBySignal (m : HTTP3TreeMessage) : Outcome HTTP3TreeMessage :=
  match m.signal with
  | 0x00 => .ok (ServerRoute.popResponseChunks m).2
  | 0x08 => do return (← m.decodeGetNodeResponse).2
  | 0x0A => do return (← m.decodeUpsertNodeResponse).2
  | 0x0C => do return (← m.decodeDeleteNodeResponse).2
  | 0x0E => do return (← m.decodeGetPageTreeResponse).2
  | 0x10 => do return (← m.decodeGetQueryNodesResponse).2
  | 0x12 => do return (← m.decodeOpenTransactionLayerResponse).2
  | 0x14 => do return (← m.decodeCloseTransactionLayersResponse).2
  | 0x16 => do return (← m.decodeApplyTransactionResponse).2
  | 0x18 => do return (← m.decodeGetFullTreeResponse).2
  | 0x1A => do return (← m.decodeRegisterNodeListenerResponse).2
  | 0x1C => do return (← m.decodeDeregisterNodeListenerResponse).2
  | 0x1E => do return (← m.decodeNotifyListenersResponse).2
  | 0x20 => do return (← m.decodeProcessNotificationResponse).2
  | 0x22 => do return (← m.decodeGetJournalResponse).2
  -- "Unknown signal"
  | _ => .ok m

/-- `processHTTP3Response`, as far as the message is concerned. What it does on the local
backend can only end it with an exception. -/
def HTTP3TreeMessage.processHTTP3Response (local' : HTTP3TreeMessage → Outcome Unit)
    (m : HTTP3TreeMessage) : Outcome HTTP3TreeMessage := do
  let processed ← m.decodeBySignal
  local' m
  return processed

/-- What a call of a handler comes to: the chunks it returns, whether it has called
`processHTTP3Response`, and whether it has taken itself out of the queue. -/
structure Handled where
  message : HTTP3TreeMessage
  processed : List SharedSpan
  answered : Bool
  finished : Bool

/-- A complete response is processed. -/
def respond (local' : HTTP3TreeMessage → Outcome Unit) (m : HTTP3TreeMessage) :
    Outcome HTTP3TreeMessage :=
  if m.responseComplete then m.processHTTP3Response local' else .ok m

/-- `messageHandler`, for the message it refers to. -/
def messageHandler (local' : HTTP3TreeMessage → Outcome Unit) (isWWATP : Bool)
    (stream : StreamIdentifier) (m : HTTP3TreeMessage) (response : List SharedSpan) : Outcome Handled := do
  let (request, m) := m.popRequestChunks
  let m ← m.pushResponseChunks response
  if response = [] ∧ request = [] ∧ m.responseComplete = false ∧ isWWATP = true then
    return ⟨m, [heartbeat stream], false, false⟩
  let after ← respond local' m
  return if after.processingFinished then
    ⟨after, request ++ [closeStream stream], m.responseComplete, true⟩
  else ⟨after, request, m.responseComplete, false⟩

/-- A handler in the queue. `number` is the place of its request among the carried ones. -/
structure ClientHandler where
  number : ℕ
  stream : StreamIdentifier
  backend : ℕ
  deriving DecidableEq

/-- An entry of `ongoingRequests_`: the message, the number of the request it was made for,
and the chunks pushed into it. -/
structure OngoingRequest where
  number : ℕ
  message : HTTP3TreeMessage
  pushed : List SharedSpan := []

/-- A request that has been given a stream: the chunks its handler has queued, and for each
call of `processHTTP3Response` the number of the message and what was pushed into it. -/
structure CarriedRequest where
  request : ClientRequest
  stream : StreamIdentifier
  queued : List SharedSpan := []
  responses : List (ℕ × List SharedSpan) := []

/-- Where the updater's thread is in `QuicConnector::processRequestStream`. -/
inductive UpdaterStage
  | waiting
  | returned (handler : ClientHandler) (processed : List SharedSpan)
  | cleaning (stream : StreamIdentifier)
  | erasing (stream : StreamIdentifier)
  | stopped

/-- The stream that is being closed. -/
def UpdaterStage.closing : UpdaterStage → Option StreamIdentifier
  | cleaning stream | erasing stream => some stream
  | _ => none

/-- An updater with its backends, each with its URL and its pending requests. `arrived` and
`sent` record the chunks that have come in for each stream and that have been popped for it. -/
structure ClientUpdater where
  connector : QuicConnector := {}
  backends : List (Request × List ClientRequest)
  ongoingRequests : StreamIdentifier → Option OngoingRequest := fun _ => none
  requestorQueue : List ClientHandler := []
  worker : UpdaterStage := .waiting
  carried : List CarriedRequest := []
  arrived : StreamIdentifier → List SharedSpan := fun _ => []
  sent : StreamIdentifier → List SharedSpan := fun _ => []

namespace ClientUpdater

inductive Action
  /-- a backend asks for something -/
  | enqueue (backend : ℕ) (request : ClientRequest)
  /-- the first half of the loop of `maintainRequestHandlers`, for a backend -/
  | maintain (backend fuel : ℕ)
  /-- the second half, when a journal request is due -/
  | solicit (backend fuel : ℕ) (request : ClientRequest)
  /-- a stream is asked for elsewhere -/
  | elsewhere (req : Request) (fuel : ℕ)
  | pushIncomingChunk (chunk : SharedSpan) (req : Request)
  | take
  | store
  | eraseIncoming
  | eraseOutgoing
  | pop (streams : List StreamIdentifier) (n : ℕ)

/-- A request gets a stream, a message and a handler; `emplace` keeps a message that is
there. -/
def register (cid : Str) (s : ClientUpdater) (backend fuel : ℕ) (req : Request)
    (request : ClientRequest) : Option ClientUpdater :=
  match QuicConnector.getNewRequestStreamIdentifier fuel cid req s.connector with
  | none => none
  | some (stream, connector) =>
    let ongoing := (s.ongoingRequests stream).getD ⟨s.carried.length, request.message, []⟩
    match ongoing.message.setRequestId stream.logicalId with
    | .error _ => none
    | .ok message => some { s with
        connector := connector
        ongoingRequests := Function.update s.ongoingRequests stream (some { ongoing with message := message })
        requestorQueue := s.requestorQueue ++ [⟨s.carried.length, stream, backend⟩]
        carried := s.carried ++ [{ request := request, stream := stream }] }

/-- The stream that a chunk is for, `pushIncomingChunk`. -/
def streamOf (cid : Str) (s : ClientUpdater) (chunk : SharedSpan) (req : Request) :
    Option StreamIdentifier :=
  if req.isWWATP then
    match chunk.getRequestId with
    | .ok id => if id = 0 then none else some ⟨cid, id⟩
    | .error _ => none
  else s.connector.staticRequests req

def setIncoming (s : ClientUpdater) (stream : StreamIdentifier) (chunks : List SharedSpan) :
    QuicConnector :=
  { s.connector with tables := { s.connector.tables with
      incomingChunks := Function.update s.connector.tables.incomingChunks stream chunks } }

/-- The handler is called with the chunks that have come in for its stream. -/
def callHandler (local' : ℕ → HTTP3TreeMessage → Outcome Unit) (s : ClientUpdater)
    (handler : ClientHandler) (rest : List ClientHandler) (req : Request) (ongoing : OngoingRequest) :
    ClientUpdater :=
  let response := s.connector.tables.incomingChunks handler.stream
  let s := { s with connector := s.setIncoming handler.stream [], requestorQueue := rest }
  match messageHandler (local' handler.backend) req.isWWATP handler.stream ongoing.message response with
  | .error _ => { s with worker := .stopped }
  | .ok handled => { s with
      requestorQueue := if handled.finished then rest.filter (·.stream ≠ handler.stream) else rest
      ongoingRequests := Function.update s.ongoingRequests handler.stream
        (some ⟨ongoing.number, handled.message, ongoing.pushed ++ response⟩)
      carried := s.carried.modify handler.number fun c => { c with
        responses := c.responses ++
          if handled.answered then [(ongoing.number, ongoing.pushed ++ response)] else [] }
      worker := .returned handler handled.processed }

/-- What becomes of the chunks that the handler has returned. -/
def storeProcessed (s : ClientUpdater) (handler : ClientHandler) (processed : List SharedSpan) :
    ClientUpdater :=
  match QuicConnector.sortRequested processed with
  | .ok .queued => { s with
      connector := { s.connector with
        tables := s.connector.tables.appendOutgoing handler.stream processed }
      requestorQueue := s.requestorQueue ++ [handler]
      carried := s.carried.modify handler.number fun c => { c with queued := c.queued ++ processed }
      worker := .waiting }
  | .ok .dropped => { s with requestorQueue := s.requestorQueue ++ [handler], worker := .waiting }
  | .ok .closing => { s with worker := .cleaning handler.stream }
  | .error _ => { s with worker := .stopped }

def step (cid : Str) (local' : ℕ → HTTP3TreeMessage → Outcome Unit) (s : ClientUpdater) :
    Action → Option ClientUpdater
  | .enqueue backend request =>
    some { s with backends := s.backends.modify backend fun (req, pending) => (req, pending ++ [request]) }
  | .maintain backend fuel =>
    match s.backends[backend]? with
    | some (req, request :: pending) =>
      { s with backends := s.backends.set backend (req, pending) }.register cid backend fuel req request
    | _ => none
  | .solicit backend fuel request =>
    match s.backends[backend]? with
    | some (req, _) => s.register cid backend fuel req request
    | none => none
  | .elsewhere req fuel => do
    let (_, connector) ← QuicConnector.getNewRequestStreamIdentifier fuel cid req s.connector
    return { s with connector := connector }
  | .pushIncomingChunk chunk req => do
    let stream ← s.streamOf cid chunk req
    return { s with
      connector := s.setIncoming stream (s.connector.tables.incomingChunks stream ++ [chunk])
      arrived := Function.update s.arrived stream (s.arrived stream ++ [chunk]) }
  | .take =>
    match s.worker, s.requestorQueue with
    | .waiting, handler :: rest => do
      let (req, _) ← s.backends[handler.backend]?
      let ongoing ← s.ongoingRequests handler.stream
      return s.callHandler local' handler rest req ongoing
    | _, _ => none
  | .store =>
    match s.worker with
    | .returned handler processed => some (s.storeProcessed handler processed)
    | _ => none
  | .eraseIncoming =>
    match s.worker with
    | .cleaning stream => some { s with connector := s.setIncoming stream [], worker := .erasing stream }
    | _ => none
  | .eraseOutgoing =>
    match s.worker with
    | .erasing stream => some { s with
        connector := { s.connector with tables := { s.connector.tables with
          outgoingChunks := s.connector.tables.outgoingChunks.erase stream } }
        worker := .waiting }
    | _ => none
  | .pop streams n =>
    let (tables, pieces) := s.connector.tables.popPieces streams n
    some { s with
      connector := { s.connector with tables := tables }
      sent := fun stream => s.sent stream ++ KeyedQueues.takenFrom pieces stream }

end ClientUpdater

namespace ClientRequest

variable (request : ClientRequest) (requestId : UInt16)

/-- The chunks of a request have payload headers. -/
theorem ofSignal_of_mem {chunk : SharedSpan} (h : chunk ∈ request.message.requestChunks) :
    ∃ header data, chunk = .ofSignal (.payload header) data := by
  cases request with
  | call operation chunks encoded =>
    obtain ⟨dataLength, data, rfl⟩ := operation.encode_encodedFor encoded chunk h
    exact ⟨_, data, rfl⟩
  | staticNodeData => exact ⟨_, [], List.mem_singleton.mp h⟩

theorem setRequestIds_chunksFor :
    HTTP3TreeMessage.setRequestIds requestId request.message.requestChunks =
      .ok (request.chunksFor requestId) := by
  have hAll : ∀ chunk ∈ request.message.requestChunks, _ := fun _ => request.ofSignal_of_mem
  rw [chunksFor]
  generalize request.message.requestChunks = chunks at hAll ⊢
  induction chunks with
  | nil => rfl
  | cons chunk rest ih =>
    obtain ⟨header, data, rfl⟩ := hAll chunk List.mem_cons_self
    rw [HTTP3TreeMessage.setRequestIds, ih fun c hC => hAll c (List.mem_cons_of_mem _ hC)]
    rfl

theorem chunksFor_payload : AllPayload (request.chunksFor requestId) := by
  intro chunk hChunk
  obtain ⟨plain, hPlain, rfl⟩ := List.mem_map.mp hChunk
  obtain ⟨header, data, rfl⟩ := request.ofSignal_of_mem hPlain
  rfl

end ClientRequest

section Handlers

variable {m m' : HTTP3TreeMessage} {local' : HTTP3TreeMessage → Outcome Unit}

/-- Response chunks leave the request alone. -/
theorem HTTP3TreeMessage.pushResponseChunk_requestChunks {chunk : SharedSpan}
    (h : m.pushResponseChunk chunk = .ok m') : m'.requestChunks = m.requestChunks := by
  rw [pushResponseChunk] at h
  split_ifs at h with hNoHeader hSignal
  · obtain rfl := Except.ok.inj h
    rfl
  · obtain ⟨signal, -, h⟩ := Outcome.bind_eq_ok.mp h
    obtain rfl := Except.ok.inj h
    split_ifs <;> rfl
  · obtain ⟨signal, -, h⟩ := Outcome.bind_eq_ok.mp h
    obtain ⟨canDecode, -, h⟩ := Outcome.bind_eq_ok.mp h
    obtain rfl := Except.ok.inj h
    split_ifs <;> rfl

theorem HTTP3TreeMessage.pushResponseChunks_requestChunks {chunks : List SharedSpan}
    (h : m.pushResponseChunks chunks = .ok m') : m'.requestChunks = m.requestChunks := by
  induction chunks generalizing m with
  | nil =>
    obtain rfl := Except.ok.inj h
    rfl
  | cons chunk rest ih =>
    obtain ⟨next, hNext, hRest⟩ := Outcome.bind_eq_ok.mp h
    exact (ih hRest).trans (pushResponseChunk_requestChunks hNext)

theorem HTTP3TreeMessage.decodeResponse_requestChunks {α : Type}
    {decode : List SharedSpan → Outcome (ℕ × α)} {value : α}
    (h : decodeResponse decode m = .ok (value, m')) : m'.requestChunks = m.requestChunks := by
  obtain ⟨-, -, h⟩ := Outcome.bind_eq_ok.mp h
  obtain ⟨⟨used, found⟩, -, h⟩ := Outcome.bind_eq_ok.mp h
  obtain ⟨-, rfl⟩ := Prod.mk.inj (Except.ok.inj h)
  rfl

theorem HTTP3TreeMessage.decodeBySignal_requestChunks (h : m.decodeBySignal = .ok m') :
    m'.requestChunks = m.requestChunks := by
  rw [decodeBySignal] at h
  split at h
  case h_1 =>
    obtain rfl := Except.ok.inj h
    rw [ServerRoute.popResponseChunks_eq]
  case h_14 =>
    obtain ⟨⟨_, finished⟩, hDecode, h⟩ := Outcome.bind_eq_ok.mp h
    obtain rfl := Except.ok.inj h
    obtain ⟨-, -, hDecode⟩ := Outcome.bind_eq_ok.mp hDecode
    obtain ⟨-, rfl⟩ := Prod.mk.inj (Except.ok.inj hDecode)
    rfl
  case h_16 =>
    obtain rfl := Except.ok.inj h
    rfl
  all_goals
    obtain ⟨⟨value, finished⟩, hDecode, h⟩ := Outcome.bind_eq_ok.mp h
    obtain rfl := Except.ok.inj h
    exact decodeResponse_requestChunks hDecode

theorem respond_requestChunks (h : respond local' m = .ok m') : m'.requestChunks = m.requestChunks := by
  rw [respond] at h
  split_ifs at h
  · obtain ⟨processed, hProcessed, h⟩ := Outcome.bind_eq_ok.mp h
    obtain ⟨-, -, h⟩ := Outcome.bind_eq_ok.mp h
    obtain rfl := Except.ok.inj h
    exact HTTP3TreeMessage.decodeBySignal_requestChunks hProcessed
  · obtain rfl := Except.ok.inj h
    rfl

/-- What a handler adds to the chunks of its request. -/
def Filler (stream : StreamIdentifier) (chunk : SharedSpan) : Prop :=
  chunk = heartbeat stream ∨ chunk = closeStream stream

/-- A handler returns the chunks of the request that are left, and takes them out. A message
that has its response has been processed. -/
theorem messageHandler_ok {isWWATP : Bool} {stream : StreamIdentifier} {response : List SharedSpan}
    {handled : Handled} (h : messageHandler local' isWWATP stream m response = .ok handled) :
    handled.message.requestChunks = [] ∧
      (handled.message.responseComplete = true → handled.answered = true) ∧
      ∃ rest, handled.processed = m.requestChunks ++ rest ∧ ∀ chunk ∈ rest, Filler stream chunk := by
  obtain ⟨pushed, hPushed, h⟩ := Outcome.bind_eq_ok.mp h
  have hEmpty : pushed.requestChunks = [] := HTTP3TreeMessage.pushResponseChunks_requestChunks hPushed
  split_ifs at h with hAsk
  · obtain rfl := Except.ok.inj h
    obtain ⟨-, hRequest, hNot, -⟩ := hAsk
    refine ⟨hEmpty, fun hComplete => hNot.symm.trans hComplete, [heartbeat stream], ?_,
      List.forall_mem_singleton.mpr (.inl rfl)⟩
    rw [show m.requestChunks = [] from hRequest, List.nil_append]
  · obtain ⟨after, hAfter, h⟩ := Outcome.bind_eq_ok.mp h
    have hTaken : after.requestChunks = [] := (respond_requestChunks hAfter).trans hEmpty
    have hAnswered : after.responseComplete = true → pushed.responseComplete = true := by
      intro hComplete
      rw [respond] at hAfter
      split_ifs at hAfter with hPart
      · exact hPart
      · obtain rfl := Except.ok.inj hAfter
        exact hComplete
    obtain rfl := Except.ok.inj h
    split_ifs
    · exact ⟨hTaken, hAnswered, [closeStream stream], rfl, List.forall_mem_singleton.mpr (.inr rfl)⟩
    · exact ⟨hTaken, hAnswered, [], (List.append_nil _).symm, List.forall_mem_nil _⟩

end Handlers

namespace ClientUpdater

variable {cid : Str} {local' : ℕ → HTTP3TreeMessage → Outcome Unit} {s t : ClientUpdater}

/-- No request has used the stream that the backend's URL is known for, and none of the chunks
erased with a stream is one of its request. -/
def Unshared (s : ClientUpdater) : Action → Prop
  | .maintain backend _ | .solicit backend _ _ =>
    ∀ req pending stream, s.backends[backend]? = some (req, pending) → req.isWWATP = false →
      s.connector.staticRequests req = some stream → s.ongoingRequests stream = none
  | .eraseOutgoing => ∀ stream, s.worker = .erasing stream →
    ∀ chunk ∈ s.connector.tables.outgoingChunks.queued stream, Filler stream chunk
  | _ => True

/-- The handlers that will be called again: the one that has just returned, and the queue. -/
def handling (s : ClientUpdater) : List ClientHandler :=
  match s.worker with
  | .returned handler _ => handler :: s.requestorQueue
  | _ => s.requestorQueue

/-- The chunks of a request that have been returned but not queued yet. -/
def inHand (s : ClientUpdater) (number : ℕ) : List SharedSpan :=
  match s.worker with
  | .returned handler processed => if handler.number = number then processed else []
  | _ => []

/-- The chunks that have been popped for a stream and those that wait. -/
def outgoing (s : ClientUpdater) (stream : StreamIdentifier) : List SharedSpan :=
  s.sent stream ++ s.connector.tables.outgoingChunks.queued stream

/-- The handler of a request has still to be called. -/
def Waits (s : ClientUpdater) (number : ℕ) : Prop :=
  s.worker = .stopped ∨ number ∈ s.requestorQueue.map ClientHandler.number

/-- A carried request has a message of its own: its chunks wait there for its handler, or it
has handed over each of them once, and nothing else has been sent on its stream. When the
message has its response `processHTTP3Response` has been called for the request; each time it
got this message, with nothing pushed into it but what came in for the stream. -/
structure Paired (s : ClientUpdater) (number : ℕ) (c : CarriedRequest) : Prop where
  own : ∃ ongoing, s.ongoingRequests c.stream = some ongoing ∧ ongoing.number = number ∧
    (ongoing.message.responseComplete = true → c.responses ≠ []) ∧
    (c.queued = [] ∧ ongoing.message.requestChunks = c.request.chunksFor c.stream.logicalId ∧
        s.Waits number ∨
      ongoing.message.requestChunks = [] ∧ ∃ rest,
        c.queued ++ s.inHand number = c.request.chunksFor c.stream.logicalId ++ rest ∧
          ∀ chunk ∈ rest, Filler c.stream chunk)
  sent : ∃ erased, s.outgoing c.stream ++ erased = c.queued ∧
    (∀ chunk ∈ erased, Filler c.stream chunk) ∧
    (number ∈ s.handling.map ClientHandler.number → erased = [])
  responses : ∀ response ∈ c.responses, response.1 = number ∧ response.2 <+: s.arrived c.stream

/-- What holds in every state of a run whose requests share no stream. -/
structure Sound (s : ClientUpdater) : Prop where
  paths : ∀ stream ongoing, s.ongoingRequests stream = some ongoing →
    (s.connector.tables.returnPaths stream).isSome
  statics : ∀ req stream, s.connector.staticRequests req = some stream →
    (s.connector.tables.returnPaths stream).isSome
  handlers : ∀ handler ∈ s.handling, ∃ c, s.carried[handler.number]? = some c ∧
    c.stream = handler.stream
  distinct : (s.handling.map ClientHandler.number).Nodup
  fed : ∀ handler ∈ s.handling, ∀ ongoing, s.ongoingRequests handler.stream = some ongoing →
    s.arrived handler.stream = ongoing.pushed ++ s.connector.tables.incomingChunks handler.stream
  pushed : ∀ stream ongoing, s.ongoingRequests stream = some ongoing →
    ongoing.pushed <+: s.arrived stream
  unused : ∀ stream, s.ongoingRequests stream = none →
    s.arrived stream = s.connector.tables.incomingChunks stream ∧ s.outgoing stream = []
  closing : ∀ stream, s.worker.closing = some stream → (s.ongoingRequests stream).isSome ∧
    ∀ handler ∈ s.handling, handler.stream ≠ stream
  paired : ∀ number c, s.carried[number]? = some c → s.Paired number c

/-- An updater that has not asked for anything yet. -/
def start (urls : List Request) : ClientUpdater where
  backends := urls.map fun req => (req, [])

theorem sound_start (urls : List Request) : (start urls).Sound where
  paths _ _ h := by cases h
  statics _ _ h := by cases h
  handlers _ h := absurd h List.not_mem_nil
  distinct := List.nodup_nil
  fed _ h := absurd h List.not_mem_nil
  pushed _ _ h := by cases h
  unused _ _ := ⟨rfl, rfl⟩
  closing _ h := by cases h
  paired number c h := by
    rw [start, List.getElem?_nil] at h
    cases h

/-- The requests of two handlers on one stream are the same. -/
theorem Sound.number_eq (h : s.Sound) {first second : ClientHandler} (hFirst : first ∈ s.handling)
    (hSecond : second ∈ s.handling) (hStream : first.stream = second.stream) :
    first.number = second.number := by
  obtain ⟨c, hC, hCStream⟩ := h.handlers first hFirst
  obtain ⟨d, hD, hDStream⟩ := h.handlers second hSecond
  obtain ⟨ongoing, hOngoing, hNumber, -⟩ := (h.paired _ c hC).own
  obtain ⟨ongoing', hOngoing', hNumber', -⟩ := (h.paired _ d hD).own
  rw [hCStream, hStream, ← hDStream, hOngoing'] at hOngoing
  obtain rfl := Option.some.inj hOngoing
  rw [← hNumber, hNumber']

/-- A connector that gives out a stream gives it a return path and keeps the others. -/
theorem Sound.getNew (h : s.Sound) {fuel : ℕ} {req : Request} {stream : StreamIdentifier}
    {connector : QuicConnector}
    (hNew : QuicConnector.getNewRequestStreamIdentifier fuel cid req s.connector =
      some (stream, connector)) :
    (connector.tables.returnPaths stream).isSome ∧
      Sound { s with connector := connector } ∧
      connector.tables.incomingChunks = s.connector.tables.incomingChunks ∧
      connector.tables.outgoingChunks = s.connector.tables.outgoingChunks ∧
      ((req.isWWATP = false ∧ s.connector.staticRequests req = some stream) ∨
        s.ongoingRequests stream = none) := by
  rcases QuicConnector.getNewRequestStreamIdentifier_ok hNew with ⟨rfl, hUrl, hKnown⟩ |
    ⟨hNone, hTables, hStatics⟩
  · exact ⟨h.statics req stream hKnown, h, rfl, rfl, .inl ⟨hUrl, hKnown⟩⟩
  have hPath : ∀ other, other = stream ∨ (s.connector.tables.returnPaths other).isSome →
      (connector.tables.returnPaths other).isSome := by
    intro other hOther
    rw [hTables, StreamTables.insertReturnPath]
    dsimp only
    rw [Function.update_apply]
    split_ifs with hStream
    · rw [Option.isSome_or, Option.isSome_some, Bool.or_true]
    · exact hOther.resolve_left hStream
  have hIncoming : connector.tables.incomingChunks = s.connector.tables.incomingChunks := by
    rw [hTables]
    rfl
  have hOutgoing : connector.tables.outgoingChunks = s.connector.tables.outgoingChunks := by
    rw [hTables]
    rfl
  refine ⟨hPath stream (.inl rfl), ?_, hIncoming, hOutgoing, .inr ?_⟩
  · refine ⟨fun other ongoing hOther => hPath other (.inr (h.paths other ongoing hOther)),
      fun other known hOther => ?_, h.handlers, h.distinct, ?_, h.pushed, ?_, h.closing, fun number c hC => ?_⟩
    · rcases hStatics other known hOther with rfl | hOld
      · exact hPath known (.inl rfl)
      · exact hPath known (.inr (h.statics other known hOld))
    · rw [hIncoming]
      exact h.fed
    · unfold outgoing
      rw [hIncoming, hOutgoing]
      exact h.unused
    · refine ⟨(h.paired number c hC).own, ?_, (h.paired number c hC).responses⟩
      unfold outgoing
      rw [hOutgoing]
      exact (h.paired number c hC).sent
  · cases hOngoing : s.ongoingRequests stream with
    | none => rfl
    | some ongoing =>
      have hSome := h.paths stream ongoing hOngoing
      rw [hNone] at hSome
      cases hSome

/-- A step that leaves the message of a request alone keeps it paired, even if it loses fillers
of a request whose handler is gone. -/
theorem Paired.losing {number : ℕ} {c : CarriedRequest} (h : s.Paired number c)
    (hOngoing : t.ongoingRequests c.stream = s.ongoingRequests c.stream)
    (hWaits : s.Waits number → t.Waits number) (hHand : t.inHand number = s.inHand number)
    {lost : List SharedSpan} (hOutgoing : t.outgoing c.stream ++ lost = s.outgoing c.stream)
    (hLost : ∀ chunk ∈ lost, Filler c.stream chunk)
    (hHandling : number ∈ t.handling.map ClientHandler.number →
      number ∈ s.handling.map ClientHandler.number ∧ lost = [])
    (hArrived : s.arrived c.stream <+: t.arrived c.stream) : t.Paired number c where
  own := by
    obtain ⟨ongoing, hMessage, hNumber, hAnswered, hChunks⟩ := h.own
    refine ⟨ongoing, hOngoing.trans hMessage, hNumber, hAnswered, ?_⟩
    rcases hChunks with ⟨hQueued, hOwn, hWaiting⟩ | hHanded
    · exact .inl ⟨hQueued, hOwn, hWaits hWaiting⟩
    · rw [hHand]
      exact .inr hHanded
  sent := by
    obtain ⟨erased, hSent, hFiller, hNone⟩ := h.sent
    refine ⟨lost ++ erased, ?_, fun chunk hChunk => ?_, fun hHandler => ?_⟩
    · rw [← List.append_assoc, hOutgoing, hSent]
    · exact (List.mem_append.mp hChunk).elim (hLost chunk) (hFiller chunk)
    · obtain ⟨hBefore, rfl⟩ := hHandling hHandler
      exact hNone hBefore
  responses response hResponse :=
    ⟨(h.responses response hResponse).1, (h.responses response hResponse).2.trans hArrived⟩

/-- A step that leaves the message and the chunks of a request alone keeps it paired. -/
theorem Paired.frame {number : ℕ} {c : CarriedRequest} (h : s.Paired number c)
    (hOngoing : t.ongoingRequests c.stream = s.ongoingRequests c.stream)
    (hWaits : s.Waits number → t.Waits number) (hHand : t.inHand number = s.inHand number)
    (hOutgoing : t.outgoing c.stream = s.outgoing c.stream)
    (hHandling : number ∈ t.handling.map ClientHandler.number →
      number ∈ s.handling.map ClientHandler.number)
    (hArrived : s.arrived c.stream <+: t.arrived c.stream) : t.Paired number c :=
  h.losing hOngoing hWaits hHand ((List.append_nil _).trans hOutgoing) (List.forall_mem_nil _)
    (fun hHandler => ⟨hHandling hHandler, rfl⟩) hArrived

/-- The stream of a handler has a message. -/
theorem Sound.ongoing_of_mem (h : s.Sound) {handler : ClientHandler} (hHandler : handler ∈ s.handling) :
    ∃ ongoing, s.ongoingRequests handler.stream = some ongoing ∧ ongoing.number = handler.number := by
  obtain ⟨c, hC, hStream⟩ := h.handlers handler hHandler
  obtain ⟨ongoing, hOngoing, hNumber, -⟩ := (h.paired _ c hC).own
  exact ⟨ongoing, hStream ▸ hOngoing, hNumber⟩

theorem handling_append (s : ClientUpdater) (handler : ClientHandler) :
    handling { s with requestorQueue := s.requestorQueue ++ [handler] } = s.handling ++ [handler] := by
  unfold handling
  cases s.worker <;> rfl

theorem setRequestId_message (request : ClientRequest) (requestId : UInt16) :
    request.message.setRequestId requestId = .ok { request.message with
      requestId := requestId
      requestChunks := request.chunksFor requestId
      requestComplete := true } := by
  rw [HTTP3TreeMessage.setRequestId, request.setRequestIds_chunksFor]
  rfl

/-- A request gets a stream of its own. -/
theorem Sound.register (h : s.Sound) {backend fuel : ℕ} {req : Request} {request : ClientRequest}
    (hUnshared : ∀ stream, req.isWWATP = false → s.connector.staticRequests req = some stream →
      s.ongoingRequests stream = none)
    (hRegister : s.register cid backend fuel req request = some t) : t.Sound := by
  rw [ClientUpdater.register] at hRegister
  split at hRegister
  · cases hRegister
  next stream connector hNew =>
  obtain ⟨hPath, hSound, hIncoming, hOutgoing, hFree⟩ := h.getNew hNew
  have hNone : s.ongoingRequests stream = none :=
    hFree.elim (fun hShared => hUnshared stream hShared.1 hShared.2) id
  rw [hNone] at hRegister
  simp only [Option.getD_none, setRequestId_message] at hRegister
  obtain rfl := Option.some.inj hRegister
  have hOther : ∀ other, (∃ ongoing, s.ongoingRequests other = some ongoing) → other ≠ stream := by
    rintro other ⟨ongoing, hOngoing⟩ rfl
    cases hNone.symm.trans hOngoing
  have hLess : ∀ handler ∈ s.handling, handler.number < s.carried.length := by
    intro handler hHandler
    obtain ⟨c, hC, -⟩ := h.handlers handler hHandler
    exact (List.getElem?_eq_some_iff.mp hC).1
  have hUpdate : ∀ other message, other ≠ stream →
      Function.update s.ongoingRequests stream message other = s.ongoingRequests other :=
    fun other message hStream => Function.update_of_ne hStream ..
  have hSelf : ∀ message : OngoingRequest,
      Function.update s.ongoingRequests stream (some message) stream = some message :=
    fun message => Function.update_self ..
  let handler : ClientHandler := ⟨s.carried.length, stream, backend⟩
  have hHandling : ∀ other ∈ s.handling ++ [handler], other ∈ s.handling ∨ other = handler :=
    fun other hOther => (List.mem_append.mp hOther).imp_right List.mem_singleton.mp
  refine ⟨fun other ongoing hOngoing => ?_, hSound.statics, ?_, ?_, ?_, fun other ongoing hOngoing => ?_,
    fun other hOngoing => ?_, fun other hClosing => ?_, fun number c hC => ?_⟩
  · by_cases hStream : other = stream
    · rw [hStream]
      exact hPath
    · exact hSound.paths other ongoing ((hUpdate other _ hStream).symm.trans hOngoing)
  · intro other hMem
    rcases hHandling other ((handling_append s handler) ▸ hMem) with hOld | rfl
    · obtain ⟨c, hC, hStream⟩ := h.handlers other hOld
      exact ⟨c, (List.getElem?_append_left (hLess other hOld)).trans hC, hStream⟩
    · exact ⟨_, List.getElem?_concat_length, rfl⟩
  · have hMap : (s.handling ++ [handler]).map ClientHandler.number =
        s.handling.map ClientHandler.number ++ [s.carried.length] := List.map_append
    change ((handling { s with requestorQueue := s.requestorQueue ++ [handler] }).map _).Nodup
    rw [handling_append, hMap, List.nodup_append]
    refine ⟨h.distinct, List.nodup_singleton _, fun number hNumber last hLast => ?_⟩
    obtain ⟨other, hMem, rfl⟩ := List.mem_map.mp hNumber
    rw [List.mem_singleton.mp hLast]
    exact (hLess other hMem).ne
  · intro other hMem ongoing hOngoing
    change _ = _ ++ connector.tables.incomingChunks other.stream
    rw [hIncoming]
    rcases hHandling other ((handling_append s handler) ▸ hMem) with hOld | rfl
    · obtain ⟨message, hMessage, -⟩ := h.ongoing_of_mem hOld
      exact h.fed other hOld ongoing
        ((hUpdate other.stream _ (hOther _ ⟨message, hMessage⟩)).symm.trans hOngoing)
    · obtain rfl := Option.some.inj ((hSelf _).symm.trans hOngoing)
      exact (h.unused stream hNone).1
  · by_cases hStream : other = stream
    · subst hStream
      obtain rfl := Option.some.inj ((hSelf _).symm.trans hOngoing)
      exact List.nil_prefix
    · exact h.pushed other ongoing ((hUpdate other _ hStream).symm.trans hOngoing)
  · by_cases hStream : other = stream
    · subst hStream
      cases (hSelf _).symm.trans hOngoing
    · exact hSound.unused other ((hUpdate other _ hStream).symm.trans hOngoing)
  · obtain ⟨hSome, hApart⟩ := h.closing other hClosing
    have hStream : other ≠ stream := hOther other (Option.isSome_iff_exists.mp hSome)
    refine ⟨(congrArg Option.isSome (hUpdate other _ hStream)).trans hSome, fun mem hMem => ?_⟩
    rcases hHandling mem ((handling_append s handler) ▸ hMem) with hOld | rfl
    · exact hApart mem hOld
    · exact hStream.symm
  · rw [List.getElem?_append] at hC
    split_ifs at hC with hOld
    · obtain ⟨message, hMessage, -⟩ := (h.paired number c hC).own
      refine (hSound.paired number c hC).frame (hUpdate _ _ (hOther _ ⟨message, hMessage⟩))
        (fun hWaiting => hWaiting.imp_right fun hMem => ?_) rfl rfl (fun hMem => ?_) List.prefix_rfl
      · rw [List.map_append]
        exact List.mem_append_left _ hMem
      · obtain ⟨mem, hIn, rfl⟩ := List.mem_map.mp hMem
        rcases hHandling mem ((handling_append s handler) ▸ hIn) with hMember | rfl
        · exact List.mem_map_of_mem hMember
        · exact absurd hOld (lt_irrefl _)
    · rw [List.getElem?_singleton] at hC
      split_ifs at hC with hLast
      obtain rfl := Option.some.inj hC
      obtain rfl : number = s.carried.length := by omega
      refine ⟨⟨_, hSelf _, rfl, fun hComplete => ?_, .inl ⟨rfl, rfl, .inr ?_⟩⟩,
        ⟨[], ?_, List.forall_mem_nil _, fun _ => rfl⟩, List.forall_mem_nil _⟩
      · cases request <;> cases hComplete
      · rw [List.map_append]
        exact List.mem_append_right _ List.mem_cons_self
      · rw [List.append_nil]
        exact (hSound.unused stream hNone).2

/-- Chunks that come in for a stream wait for its handler. -/
theorem Sound.pushIncomingChunk (h : s.Sound) (stream : StreamIdentifier) (chunk : SharedSpan) :
    Sound { s with
      connector := s.setIncoming stream (s.connector.tables.incomingChunks stream ++ [chunk])
      arrived := Function.update s.arrived stream (s.arrived stream ++ [chunk]) } := by
  have hGrows : ∀ (table : StreamIdentifier → List SharedSpan) other,
      Function.update table stream (table stream ++ [chunk]) other =
        table other ++ if other = stream then [chunk] else [] := by
    intro table other
    rw [Function.update_apply]
    split_ifs with hStream
    · rw [hStream]
    · rw [List.append_nil]
  have hPrefix : ∀ other, s.arrived other <+:
      Function.update s.arrived stream (s.arrived stream ++ [chunk]) other :=
    fun other => hGrows s.arrived other ▸ List.prefix_append _ _
  refine ⟨h.paths, h.statics, h.handlers, h.distinct, fun handler hHandler ongoing hOngoing => ?_,
    fun other ongoing hOngoing => (h.pushed other ongoing hOngoing).trans (hPrefix other),
    fun other hOngoing => ⟨?_, (h.unused other hOngoing).2⟩, h.closing, fun number c hC => ?_⟩
  · have hFed := h.fed handler hHandler ongoing hOngoing
    rw [setIncoming]
    dsimp only
    rw [hGrows, hGrows, hFed, List.append_assoc]
  · have hUnused := (h.unused other hOngoing).1
    rw [setIncoming]
    dsimp only
    rw [hGrows, hGrows, hUnused]
  · exact (h.paired number c hC).frame rfl id rfl rfl id (hPrefix c.stream)

/-- Chunks that are sent leave the queues. -/
theorem Sound.pop (h : s.Sound) (streams : List StreamIdentifier) (n : ℕ) :
    Sound { s with
      connector := { s.connector with tables := (s.connector.tables.popPieces streams n).1 }
      sent := fun stream => s.sent stream ++
        KeyedQueues.takenFrom (s.connector.tables.popPieces streams n).2 stream } := by
  have hSame : ∀ stream, (s.sent stream ++
      KeyedQueues.takenFrom (s.connector.tables.popPieces streams n).2 stream) ++
        KeyedQueues.queued (s.connector.tables.popPieces streams n).1.outgoingChunks stream =
          s.outgoing stream := by
    intro stream
    rw [List.append_assoc]
    exact congrArg _ (KeyedQueues.takenFrom_append_queued s.connector.tables.outgoingChunks streams n stream)
  refine ⟨h.paths, h.statics, h.handlers, h.distinct, h.fed, h.pushed, fun stream hOngoing => ?_,
    h.closing, fun number c hC => ?_⟩
  · exact ⟨(h.unused stream hOngoing).1, (hSame stream).trans (h.unused stream hOngoing).2⟩
  · exact (h.paired number c hC).frame rfl id rfl (hSame c.stream) id List.prefix_rfl

section Taking

variable {handler : ClientHandler} {rest : List ClientHandler}

/-- No other handler is for the stream of a handler. -/
theorem Sound.apart (h : s.Sound) (hHandling : s.handling = handler :: rest) {other : ClientHandler}
    (hOther : other ∈ rest) : other.stream ≠ handler.stream ∧ other.number ≠ handler.number := by
  have hDistinct := h.distinct
  rw [hHandling, List.map_cons, List.nodup_cons] at hDistinct
  have hNumber : other.number ≠ handler.number := fun hSame =>
    hDistinct.1 (hSame ▸ List.mem_map_of_mem hOther)
  refine ⟨fun hStream => hNumber (h.number_eq ?_ ?_ hStream), hNumber⟩
  · exact hHandling ▸ List.mem_cons_of_mem handler hOther
  · exact hHandling ▸ List.mem_cons_self

/-- No other request is carried on the stream of a handler. -/
theorem Sound.stream_ne (h : s.Sound) (hHandler : handler ∈ s.handling) {number : ℕ} {c : CarriedRequest}
    (hC : s.carried[number]? = some c) (hNumber : number ≠ handler.number) :
    c.stream ≠ handler.stream := by
  intro hStream
  obtain ⟨ongoing, hOngoing, hOwn, -⟩ := (h.paired number c hC).own
  obtain ⟨message, hMessage, hOther⟩ := h.ongoing_of_mem hHandler
  rw [hStream, hMessage] at hOngoing
  obtain rfl := Option.some.inj hOngoing
  exact hNumber (hOwn.symm.trans hOther)

theorem setIncoming_of_ne {stream other : StreamIdentifier} (hStream : other ≠ stream)
    (chunks : List SharedSpan) : (s.setIncoming stream chunks).tables.incomingChunks other =
      s.connector.tables.incomingChunks other :=
  Function.update_of_ne hStream ..

/-- The carried requests after a change of one of them. -/
theorem getElem?_modify_cases {carried : List CarriedRequest} {place number : ℕ} {f : CarriedRequest → CarriedRequest}
    {c : CarriedRequest} (h : (carried.modify place f)[number]? = some c) :
    ∃ old, carried[number]? = some old ∧
      (number ≠ place ∧ c = old ∨ number = place ∧ c = f old) := by
  rw [List.getElem?_modify] at h
  obtain ⟨old, hOld, rfl⟩ := Option.map_eq_some_iff.mp h
  refine ⟨old, hOld, ?_⟩
  split_ifs with hPlace
  · exact .inr ⟨hPlace.symm, rfl⟩
  · exact .inl ⟨Ne.symm hPlace, rfl⟩

theorem handling_of_waiting (hWaiting : s.worker = .waiting) : s.handling = s.requestorQueue := by
  rw [handling, hWaiting]

/-- A handler that throws. -/
theorem Sound.throws (h : s.Sound) (hWaiting : s.worker = .waiting)
    (hQueue : s.requestorQueue = handler :: rest) :
    Sound { s with
      connector := s.setIncoming handler.stream []
      requestorQueue := rest
      worker := .stopped } := by
  have hHandling : s.handling = handler :: rest := (handling_of_waiting hWaiting).trans hQueue
  have hOthers : ∀ other ∈ rest, other ∈ s.handling := fun other hOther =>
    hHandling ▸ List.mem_cons_of_mem handler hOther
  have hDistinct := h.distinct
  rw [hHandling] at hDistinct
  obtain ⟨ongoing, hOngoing, -⟩ := h.ongoing_of_mem (hHandling ▸ List.mem_cons_self)
  refine ⟨h.paths, h.statics, fun other hOther => h.handlers other (hOthers other hOther),
    (List.nodup_cons.mp hDistinct).2, fun other hOther message hMessage => ?_, h.pushed,
    fun stream hNone => ?_, fun _ => nofun,
    fun number c hC => ?_⟩
  · rw [setIncoming_of_ne (h.apart hHandling hOther).1]
    exact h.fed other (hOthers other hOther) message hMessage
  · have hStream : stream ≠ handler.stream := by
      rintro rfl
      cases hNone.symm.trans hOngoing
    rw [setIncoming_of_ne hStream]
    exact h.unused stream hNone
  · refine (h.paired number c hC).frame rfl (fun _ => .inl rfl) ?_ rfl (fun hNumber => ?_) List.prefix_rfl
    · rw [inHand, inHand, hWaiting]
    · rw [hHandling]
      exact List.mem_cons_of_mem _ hNumber

/-- A request whose handler has returned: its chunks are in hand. -/
theorem Paired.returned (h : s.Paired handler.number c) (hStream : c.stream = handler.stream)
    (hWaiting : s.worker = .waiting) {ongoing : OngoingRequest}
    (hOngoing : s.ongoingRequests handler.stream = some ongoing) {handled : Handled}
    (hTaken : handled.message.requestChunks = [])
    (hAnswered : handled.message.responseComplete = true → handled.answered = true)
    {extra : List SharedSpan} (hProcessed : handled.processed = ongoing.message.requestChunks ++ extra)
    (hExtra : ∀ chunk ∈ extra, Filler handler.stream chunk) {response : List SharedSpan}
    (hResponse : response <+: s.arrived handler.stream)
    (hNumber : handler.number ∈ s.handling.map ClientHandler.number)
    (hMessage : t.ongoingRequests handler.stream = some ⟨ongoing.number, handled.message, response⟩)
    (hHand : t.inHand handler.number = handled.processed)
    (hOutgoing : t.outgoing c.stream = s.outgoing c.stream) (hArrived : t.arrived = s.arrived) :
    t.Paired handler.number { c with
      responses := c.responses ++ if handled.answered then [(ongoing.number, response)] else [] } := by
  obtain ⟨message, hOld, hOwn, -, hChunks⟩ := h.own
  rw [hStream, hOngoing] at hOld
  obtain rfl := Option.some.inj hOld
  have hNone : s.inHand handler.number = [] := by rw [inHand, hWaiting]
  refine ⟨⟨⟨ongoing.number, handled.message, response⟩, hStream ▸ hMessage, hOwn, fun hComplete => ?_,
    .inr ⟨hTaken, ?_⟩⟩, ?_, fun answer hAnswer => ?_⟩
  · rw [hAnswered hComplete]
    exact List.append_ne_nil_of_right_ne_nil _ (List.cons_ne_nil _ _)
  · dsimp only
    rw [hHand, hProcessed, hStream]
    rw [hStream] at hChunks
    rcases hChunks with ⟨hQueued, hRequest, -⟩ | ⟨hRequest, rest, hQueued, hRest⟩
    · exact ⟨extra, by rw [hQueued, hRequest, List.nil_append], hExtra⟩
    · rw [hNone, List.append_nil] at hQueued
      refine ⟨rest ++ extra, by rw [hQueued, hRequest, List.nil_append, List.append_assoc], ?_⟩
      exact fun chunk hChunk => (List.mem_append.mp hChunk).elim (hRest chunk) (hExtra chunk)
  · obtain ⟨erased, hSent, hFiller, hErased⟩ := h.sent
    obtain rfl := hErased hNumber
    exact ⟨[], (congrArg (· ++ []) hOutgoing).trans hSent, List.forall_mem_nil _, fun _ => rfl⟩
  · rw [hArrived]
    rcases List.mem_append.mp hAnswer with hBefore | hNow
    · exact h.responses answer hBefore
    · split_ifs at hNow
      · obtain rfl := List.mem_singleton.mp hNow
        exact ⟨hOwn, hStream ▸ hResponse⟩
      · exact absurd hNow List.not_mem_nil

/-- A call of a handler. -/
theorem Sound.callHandler (h : s.Sound) {req : Request} {ongoing : OngoingRequest}
    (hWaiting : s.worker = .waiting) (hQueue : s.requestorQueue = handler :: rest)
    (hOngoing : s.ongoingRequests handler.stream = some ongoing) :
    (s.callHandler local' handler rest req ongoing).Sound := by
  rw [ClientUpdater.callHandler]
  dsimp only
  split
  next => exact h.throws hWaiting hQueue
  next handled hHandled =>
  have hHandling : s.handling = handler :: rest := (handling_of_waiting hWaiting).trans hQueue
  have hMem : handler ∈ s.handling := hHandling ▸ List.mem_cons_self
  have hDistinct := h.distinct
  rw [hHandling] at hDistinct
  have hFed := h.fed handler hMem ongoing hOngoing
  have hRest : rest.filter (·.stream ≠ handler.stream) = rest := by
    refine List.filter_eq_self.mpr fun other hOther => decide_eq_true ?_
    exact (h.apart hHandling hOther).1
  rw [hRest, ite_self]
  have hUpdate : ∀ other message, other ≠ handler.stream →
      Function.update s.ongoingRequests handler.stream message other = s.ongoingRequests other :=
    fun other message hStream => Function.update_of_ne hStream ..
  have hSelf : ∀ message : OngoingRequest,
      Function.update s.ongoingRequests handler.stream (some message) handler.stream = some message :=
    fun message => Function.update_self ..
  refine ⟨fun other message hMessage => ?_, h.statics, fun other hOther => ?_, hDistinct,
    fun other hOther message hMessage => ?_, fun other message hMessage => ?_,
    fun stream hNone => ?_, fun _ => nofun,
    fun number c hC => ?_⟩
  · by_cases hStream : other = handler.stream
    · rw [hStream]
      exact h.paths handler.stream ongoing hOngoing
    · exact h.paths other message ((hUpdate other _ hStream).symm.trans hMessage)
  · obtain ⟨c, hC, hStream⟩ := h.handlers other (hHandling ▸ hOther)
    dsimp only
    rw [List.getElem?_modify, hC]
    refine ⟨_, rfl, ?_⟩
    dsimp only
    split_ifs <;> exact hStream
  · dsimp only at hMessage ⊢
    by_cases hStream : other.stream = handler.stream
    · rw [hStream] at hMessage ⊢
      obtain rfl := Option.some.inj ((hSelf _).symm.trans hMessage)
      rw [hFed, setIncoming]
      dsimp only
      rw [Function.update_self, List.append_nil]
    · rw [setIncoming_of_ne hStream]
      exact h.fed other (hHandling ▸ hOther) message ((hUpdate _ _ hStream).symm.trans hMessage)
  · by_cases hStream : other = handler.stream
    · subst hStream
      obtain rfl := Option.some.inj ((hSelf _).symm.trans hMessage)
      exact hFed ▸ List.prefix_rfl
    · exact h.pushed other message ((hUpdate other _ hStream).symm.trans hMessage)
  · by_cases hStream : stream = handler.stream
    · subst hStream
      cases (hSelf _).symm.trans hNone
    · dsimp only
      rw [setIncoming_of_ne hStream]
      exact h.unused stream ((hUpdate stream _ hStream).symm.trans hNone)
  · obtain ⟨old, hOld, ⟨hNumber, rfl⟩ | ⟨rfl, rfl⟩⟩ := getElem?_modify_cases hC
    · refine (h.paired number c hOld).frame (hUpdate _ _ (h.stream_ne hMem hOld hNumber))
        (fun hWaits => .inr ?_) ?_ rfl (fun hNumber => ?_) List.prefix_rfl
      · rw [Waits, hWaiting, hQueue, List.map_cons, List.mem_cons] at hWaits
        exact (hWaits.resolve_left UpdaterStage.noConfusion).resolve_left hNumber
      · rw [inHand, inHand, hWaiting]
        exact if_neg hNumber.symm
      · rw [hHandling]
        exact hNumber
    · obtain ⟨hTaken, hAnswered, extra, hProcessed, hExtra⟩ := messageHandler_ok hHandled
      obtain ⟨c, hC, hStream⟩ := h.handlers handler hMem
      obtain rfl := Option.some.inj (hOld.symm.trans hC)
      exact (h.paired _ old hOld).returned hStream hWaiting hOngoing hTaken hAnswered hProcessed hExtra
        (hFed ▸ List.prefix_rfl) (List.mem_map_of_mem hMem) (hSelf _) (if_pos rfl) rfl rfl

end Taking

section Storing

variable {handler : ClientHandler} {processed : List SharedSpan}

/-- Chunks that are not queued: there are none, or a single signal. -/
def Unqueued (processed : List SharedSpan) : Prop :=
  processed = [] ∨ ∃ chunk, processed = [chunk] ∧ chunk.signalType = 1

theorem sortRequested_cases (processed : List SharedSpan) :
    QuicConnector.sortRequested processed = .ok .queued ∨ Unqueued processed := by
  match processed with
  | [] => exact .inr (.inl rfl)
  | [chunk] =>
    by_cases hSignal : chunk.signalType = 1
    · exact .inr (.inr ⟨chunk, rfl, hSignal⟩)
    · refine .inl ?_
      rw [QuicConnector.sortRequested, isSignalAlone, if_neg (List.cons_ne_nil _ _), if_neg hSignal]
  | _ :: _ :: _ => exact .inl rfl

/-- A signal at the end of chunks with payload headers comes after all of them. -/
theorem Unqueued.cut {front own rest : List SharedSpan} (h : Unqueued processed) (hOwn : AllPayload own)
    (hSame : front ++ processed = own ++ rest) :
    ∃ left, front = own ++ left ∧ ∀ chunk ∈ left, chunk ∈ rest := by
  rcases h with rfl | ⟨chunk, rfl, hSignal⟩
  · exact ⟨rest, (List.append_nil front).symm.trans hSame, fun _ => id⟩
  rcases List.eq_nil_or_concat' rest with rfl | ⟨left, last, rfl⟩
  · have hMem : chunk ∈ own := by
      rw [← List.append_nil own, ← hSame]
      exact List.mem_append_right _ List.mem_cons_self
    rw [hOwn chunk hMem] at hSignal
    cases hSignal
  · rw [← List.append_assoc] at hSame
    obtain ⟨rfl, -⟩ := List.append_inj' hSame rfl
    exact ⟨left, rfl, fun other hOther => List.mem_append_left _ hOther⟩

/-- What the handler of a request has returned is kept, or it need not be. -/
theorem Paired.stored {c : CarriedRequest} (h : s.Paired handler.number c)
    (hReturned : s.worker = .returned handler processed)
    (hNotQueued : handler.number ∉ s.requestorQueue.map ClientHandler.number) {kept : List SharedSpan}
    (hKept : kept = processed ∨ kept = [] ∧ Unqueued processed)
    (hOngoing : t.ongoingRequests = s.ongoingRequests) (hHand : t.inHand handler.number = [])
    (hOutgoing : t.outgoing c.stream = s.outgoing c.stream ++ kept) (hArrived : t.arrived = s.arrived) :
    t.Paired handler.number { c with queued := c.queued ++ kept } := by
  have hInHand : s.inHand handler.number = processed := by
    rw [inHand, hReturned]
    exact if_pos rfl
  refine ⟨?_, ?_, fun answer hAnswer => hArrived ▸ h.responses answer hAnswer⟩
  · obtain ⟨ongoing, hMessage, hOwn, hAnswered, hChunks⟩ := h.own
    refine ⟨ongoing, hOngoing ▸ hMessage, hOwn, hAnswered, .inr ?_⟩
    rcases hChunks with ⟨-, -, hWaits⟩ | ⟨hTaken, rest, hQueued, hRest⟩
    · rw [Waits, hReturned] at hWaits
      exact absurd (hWaits.resolve_left UpdaterStage.noConfusion) hNotQueued
    refine ⟨hTaken, ?_⟩
    rw [hInHand] at hQueued
    rw [hHand, List.append_nil]
    rcases hKept with rfl | ⟨rfl, hNone⟩
    · exact ⟨rest, hQueued, hRest⟩
    · rw [List.append_nil]
      obtain ⟨left, hLeft, hMem⟩ := hNone.cut (c.request.chunksFor_payload c.stream.logicalId) hQueued
      exact ⟨left, hLeft, fun chunk hChunk => hRest chunk (hMem chunk hChunk)⟩
  · obtain ⟨erased, hSent, -, hErased⟩ := h.sent
    have hHandler : handler.number ∈ s.handling.map ClientHandler.number := by
      rw [handling, hReturned]
      exact List.mem_cons_self
    obtain rfl := hErased hHandler
    rw [List.append_nil] at hSent
    refine ⟨[], ?_, List.forall_mem_nil _, fun _ => rfl⟩
    rw [List.append_nil, hOutgoing, hSent]

/-- The chunks that a handler has returned are queued for its stream. -/
theorem Sound.queued (h : s.Sound) (hReturned : s.worker = .returned handler processed) :
    Sound { s with
      connector := { s.connector with
        tables := s.connector.tables.appendOutgoing handler.stream processed }
      requestorQueue := s.requestorQueue ++ [handler]
      carried := s.carried.modify handler.number fun c => { c with queued := c.queued ++ processed }
      worker := .waiting } := by
  have hHandling : s.handling = handler :: s.requestorQueue := by rw [handling, hReturned]
  have hMem : handler ∈ s.handling := hHandling ▸ List.mem_cons_self
  have hPerm : (s.requestorQueue ++ [handler]).Perm s.handling :=
    hHandling ▸ List.perm_append_singleton handler s.requestorQueue
  have hDistinct := h.distinct
  rw [hHandling, List.map_cons, List.nodup_cons] at hDistinct
  have hOutgoing : ∀ stream, s.sent stream ++ KeyedQueues.queued
      (s.connector.tables.appendOutgoing handler.stream processed).outgoingChunks stream =
        s.outgoing stream ++ if stream = handler.stream then processed else [] := by
    intro stream
    rw [StreamTables.appendOutgoing]
    dsimp only
    rw [KeyedQueues.queued_append, Function.update_apply, outgoing]
    split_ifs with hStream
    · rw [hStream, List.append_assoc]
    · rw [List.append_nil]
  refine ⟨h.paths, h.statics, fun other hOther => ?_, (hPerm.map _).nodup_iff.mpr h.distinct,
    fun other hOther => h.fed other (hPerm.subset hOther), h.pushed, fun stream hNone => ?_,
    fun _ hNever => (by cases hNever), fun number c hC => ?_⟩
  · obtain ⟨c, hC, hStream⟩ := h.handlers other (hPerm.subset hOther)
    dsimp only
    rw [List.getElem?_modify, hC]
    refine ⟨_, rfl, ?_⟩
    dsimp only
    split_ifs <;> exact hStream
  · have hStream : stream ≠ handler.stream := by
      rintro rfl
      obtain ⟨ongoing, hOngoing, -⟩ := h.ongoing_of_mem hMem
      cases hNone.symm.trans hOngoing
    obtain ⟨hArrived, hNothing⟩ := h.unused stream hNone
    refine ⟨hArrived, (hOutgoing stream).trans ?_⟩
    rw [hNothing, if_neg hStream, List.append_nil]
  · obtain ⟨old, hOld, ⟨hNumber, rfl⟩ | ⟨rfl, rfl⟩⟩ := getElem?_modify_cases hC
    · have hStream : c.stream ≠ handler.stream := h.stream_ne hMem hOld hNumber
      refine (h.paired number c hOld).frame rfl (fun hWaits => .inr ?_) ?_ ?_ (fun hNumber => ?_)
        List.prefix_rfl
      · rw [Waits, hReturned] at hWaits
        rw [List.map_append]
        exact List.mem_append_left _ (hWaits.resolve_left UpdaterStage.noConfusion)
      · rw [inHand, inHand, hReturned]
        exact (if_neg hNumber.symm).symm
      · rw [outgoing]
        dsimp only
        rw [hOutgoing, if_neg hStream, List.append_nil]
      · exact (hPerm.map _).subset hNumber
    · obtain ⟨c, hC, hStream⟩ := h.handlers handler hMem
      obtain rfl := Option.some.inj (hOld.symm.trans hC)
      refine (h.paired _ old hOld).stored hReturned hDistinct.1 (.inl rfl) rfl rfl ?_ rfl
      rw [outgoing]
      dsimp only
      rw [hOutgoing, if_pos hStream]

/-- A thread that has no handler's chunks in hand. -/
def EmptyHanded (worker : UpdaterStage) : Prop :=
  ∀ handler processed, worker ≠ .returned handler processed

theorem handling_of_emptyHanded (h : EmptyHanded s.worker) : s.handling = s.requestorQueue := by
  rw [handling]
  split
  next hReturned => exact absurd hReturned (h _ _)
  next => rfl

theorem inHand_of_emptyHanded (h : EmptyHanded s.worker) (number : ℕ) : s.inHand number = [] := by
  rw [inHand]
  split
  next hReturned => exact absurd hReturned (h _ _)
  next => rfl

/-- The chunks that a handler has returned are not queued: its stream is closed, or it waits
in the queue again. -/
theorem Sound.unqueued (h : s.Sound) (hReturned : s.worker = .returned handler processed)
    (hNone : Unqueued processed) {queue : List ClientHandler} {worker : UpdaterStage}
    (hEmpty : EmptyHanded worker)
    (hQueue : queue = s.requestorQueue ∨ queue = s.requestorQueue ++ [handler])
    (hClosing : ∀ stream, worker.closing = some stream →
      stream = handler.stream ∧ queue = s.requestorQueue) :
    Sound { s with requestorQueue := queue, worker := worker } := by
  have hHandling : s.handling = handler :: s.requestorQueue := by rw [handling, hReturned]
  have hMem : handler ∈ s.handling := hHandling ▸ List.mem_cons_self
  have hDistinct := h.distinct
  rw [hHandling, List.map_cons, List.nodup_cons] at hDistinct
  have hPerm : (s.requestorQueue ++ [handler]).Perm s.handling :=
    hHandling ▸ List.perm_append_singleton handler s.requestorQueue
  have hSub : ∀ other ∈ queue, other ∈ s.handling := by
    intro other hOther
    rcases hQueue with rfl | rfl
    · exact hHandling ▸ List.mem_cons_of_mem handler hOther
    · exact hPerm.subset hOther
  have hNew : handling { s with requestorQueue := queue, worker := worker } = queue :=
    handling_of_emptyHanded hEmpty
  have hMapped : ∀ number, number ∈ queue.map ClientHandler.number →
      number ∈ s.handling.map ClientHandler.number := by
    intro number hNumber
    obtain ⟨other, hOther, rfl⟩ := List.mem_map.mp hNumber
    exact List.mem_map_of_mem (hSub other hOther)
  have hAtHand := inHand_of_emptyHanded (s := { s with requestorQueue := queue, worker := worker }) hEmpty
  refine ⟨h.paths, h.statics, fun other hOther => h.handlers other (hSub other (hNew ▸ hOther)), ?_,
    fun other hOther => h.fed other (hSub other (hNew ▸ hOther)), h.pushed, h.unused,
    fun stream hClosed => ?_, fun number c hC => ?_⟩
  · rw [hNew]
    rcases hQueue with rfl | rfl
    · exact hDistinct.2
    · exact (hPerm.map _).nodup_iff.mpr h.distinct
  · obtain ⟨rfl, rfl⟩ := hClosing stream hClosed
    obtain ⟨ongoing, hOngoing, -⟩ := h.ongoing_of_mem hMem
    exact ⟨Option.isSome_of_eq_some hOngoing, fun other hOther =>
      (h.apart hHandling (hNew ▸ hOther)).1⟩
  · by_cases hNumber : number = handler.number
    · subst hNumber
      have hPaired : Paired { s with requestorQueue := queue, worker := worker } handler.number
          { c with queued := c.queued ++ [] } :=
        (h.paired _ c hC).stored hReturned hDistinct.1 (.inr ⟨rfl, hNone⟩) rfl (hAtHand _)
          (List.append_nil _).symm rfl
      rwa [List.append_nil] at hPaired
    · refine (h.paired number c hC).frame rfl (fun hWaits => .inr ?_) ?_ rfl ?_ List.prefix_rfl
      · rw [Waits, hReturned] at hWaits
        have hBefore := hWaits.resolve_left UpdaterStage.noConfusion
        rcases hQueue with rfl | rfl
        · exact hBefore
        · rw [List.map_append]
          exact List.mem_append_left _ hBefore
      · rw [hAtHand, inHand, hReturned]
        exact (if_neg (Ne.symm hNumber)).symm
      · rw [hNew]
        exact hMapped number

/-- What a handler has returned is put away. -/
theorem Sound.storeProcessed (h : s.Sound) (hReturned : s.worker = .returned handler processed) :
    (s.storeProcessed handler processed).Sound := by
  rw [ClientUpdater.storeProcessed]
  rcases sortRequested_cases processed with hSort | hNone
  · rw [hSort]
    exact h.queued hReturned
  split
  · exact h.queued hReturned
  · exact h.unqueued hReturned hNone (fun _ _ => UpdaterStage.noConfusion) (.inr rfl) fun _ => nofun
  · refine h.unqueued hReturned hNone (fun _ _ => UpdaterStage.noConfusion) (.inl rfl)
      fun stream hClosing => ⟨?_, rfl⟩
    exact (Option.some.inj hClosing).symm
  · exact h.unqueued hReturned hNone (fun _ _ => UpdaterStage.noConfusion) (.inl rfl) fun _ => nofun

end Storing

section Erasing

variable {stream : StreamIdentifier}

theorem Sound.eraseIncoming (h : s.Sound) (hClosing : s.worker = .cleaning stream) :
    Sound { s with connector := s.setIncoming stream [], worker := .erasing stream } := by
  have hHandling : s.handling = s.requestorQueue := by rw [handling, hClosing]
  obtain ⟨hSome, hApart⟩ := h.closing stream (congrArg UpdaterStage.closing hClosing)
  rw [hHandling] at hApart
  refine ⟨h.paths, h.statics, fun other hOther => h.handlers other (hHandling ▸ hOther),
    hHandling ▸ h.distinct, fun other hOther ongoing hOngoing => ?_, h.pushed, fun other hNone => ?_,
    fun other hOther => ?_, fun number c hC => ?_⟩
  · rw [setIncoming_of_ne (hApart other hOther)]
    exact h.fed other (hHandling ▸ hOther) ongoing hOngoing
  · have hStream : other ≠ stream := by
      rintro rfl
      rw [hNone] at hSome
      cases hSome
    rw [setIncoming_of_ne hStream]
    exact h.unused other hNone
  · obtain rfl := Option.some.inj hOther
    exact ⟨hSome, hApart⟩
  · refine (h.paired number c hC).frame rfl (fun hWaits => .inr ?_) ?_ rfl (fun hNumber => ?_)
      List.prefix_rfl
    · rw [Waits, hClosing] at hWaits
      exact hWaits.resolve_left UpdaterStage.noConfusion
    · rw [inHand, inHand, hClosing]
    · exact hHandling ▸ hNumber

/-- Nothing but fillers is lost with the chunks that wait for a closed stream. -/
theorem Sound.eraseOutgoing (h : s.Sound) (hClosing : s.worker = .erasing stream)
    (hFillers : ∀ chunk ∈ s.connector.tables.outgoingChunks.queued stream, Filler stream chunk) :
    Sound { s with
      connector := { s.connector with tables := { s.connector.tables with
        outgoingChunks := s.connector.tables.outgoingChunks.erase stream } }
      worker := .waiting } := by
  have hHandling : s.handling = s.requestorQueue := by rw [handling, hClosing]
  obtain ⟨hSome, hApart⟩ := h.closing stream (congrArg UpdaterStage.closing hClosing)
  have hOutgoing : ∀ other, other ≠ stream →
      s.sent other ++ KeyedQueues.queued (s.connector.tables.outgoingChunks.erase stream) other =
        s.outgoing other := by
    intro other hStream
    rw [KeyedQueues.queued_erase, Function.update_of_ne hStream]
    rfl
  refine ⟨h.paths, h.statics, fun other hOther => h.handlers other (hHandling ▸ hOther),
    hHandling ▸ h.distinct, fun other hOther => h.fed other (hHandling ▸ hOther), h.pushed,
    fun other hNone => ?_, fun _ => nofun, fun number c hC => ?_⟩
  · have hStream : other ≠ stream := by
      rintro rfl
      rw [hNone] at hSome
      cases hSome
    exact ⟨(h.unused other hNone).1, (hOutgoing other hStream).trans (h.unused other hNone).2⟩
  have hWaits : s.Waits number → number ∈ s.requestorQueue.map ClientHandler.number := by
    rw [Waits, hClosing]
    exact fun hWaits => hWaits.resolve_left UpdaterStage.noConfusion
  have hHand : s.inHand number = [] := by rw [inHand, hClosing]
  by_cases hStream : c.stream = stream
  · refine (h.paired number c hC).losing rfl (fun hWaiting => .inr (hWaits hWaiting)) hHand.symm ?_
      (hStream ▸ hFillers) (fun hNumber => ?_) List.prefix_rfl
    · rw [outgoing, outgoing, hStream]
      dsimp only
      rw [KeyedQueues.queued_erase, Function.update_self, List.append_nil]
    · obtain ⟨handler, hHandler, rfl⟩ := List.mem_map.mp hNumber
      have hMem : handler ∈ s.handling := hHandling ▸ hHandler
      obtain ⟨d, hD, hOwn⟩ := h.handlers handler hMem
      obtain rfl := Option.some.inj (hC.symm.trans hD)
      exact absurd (hOwn.symm.trans hStream) (hApart handler hMem)
  · exact (h.paired number c hC).frame rfl (fun hWaiting => .inr (hWaits hWaiting)) hHand.symm
      (hOutgoing _ hStream) (fun hNumber => hHandling ▸ hNumber) List.prefix_rfl

end Erasing

theorem Sound.setBackends (h : s.Sound) (backends : List (Request × List ClientRequest)) :
    Sound { s with backends := backends } :=
  ⟨h.paths, h.statics, h.handlers, h.distinct, h.fed, h.pushed, h.unused, h.closing, fun number c hC =>
    (h.paired number c hC).frame rfl id rfl rfl id List.prefix_rfl⟩

theorem Sound.step (h : s.Sound) {action : Action} (hUnshared : s.Unshared action)
    (hStep : step cid local' s action = some t) : t.Sound := by
  cases action with
  | enqueue backend request =>
    obtain rfl := Option.some.inj hStep
    exact h.setBackends _
  | maintain backend fuel =>
    rw [ClientUpdater.step] at hStep
    split at hStep
    next req request pending hBackend =>
      refine (h.setBackends _).register (fun stream => ?_) hStep
      exact hUnshared req (request :: pending) stream hBackend
    next => cases hStep
  | solicit backend fuel request =>
    rw [ClientUpdater.step] at hStep
    split at hStep
    next req pending hBackend =>
      exact h.register (fun stream => hUnshared req pending stream hBackend) hStep
    next => cases hStep
  | elsewhere req fuel =>
    obtain ⟨⟨stream, connector⟩, hNew, hStep⟩ := Option.bind_eq_some_iff.mp hStep
    obtain rfl := Option.some.inj hStep
    exact (h.getNew hNew).2.1
  | pushIncomingChunk chunk req =>
    obtain ⟨stream, -, hStep⟩ := Option.bind_eq_some_iff.mp hStep
    obtain rfl := Option.some.inj hStep
    exact h.pushIncomingChunk stream chunk
  | take =>
    rw [ClientUpdater.step] at hStep
    split at hStep
    next handler rest hWaiting hQueue =>
      obtain ⟨⟨req, pending⟩, -, hStep⟩ := Option.bind_eq_some_iff.mp hStep
      obtain ⟨ongoing, hOngoing, hStep⟩ := Option.bind_eq_some_iff.mp hStep
      obtain rfl := Option.some.inj hStep
      exact h.callHandler hWaiting hQueue hOngoing
    next => cases hStep
  | store =>
    rw [ClientUpdater.step] at hStep
    split at hStep
    next handler processed hReturned =>
      obtain rfl := Option.some.inj hStep
      exact h.storeProcessed hReturned
    next => cases hStep
  | eraseIncoming =>
    rw [ClientUpdater.step] at hStep
    split at hStep
    next stream hCleaning =>
      obtain rfl := Option.some.inj hStep
      exact h.eraseIncoming hCleaning
    next => cases hStep
  | eraseOutgoing =>
    rw [ClientUpdater.step] at hStep
    split at hStep
    next stream hErasing =>
      obtain rfl := Option.some.inj hStep
      exact h.eraseOutgoing hErasing (hUnshared stream hErasing)
    next => cases hStep
  | pop streams n =>
    obtain rfl := Option.some.inj hStep
    exact h.pop streams n

/-- As long as no request for a static file comes while an earlier one has a message on its
stream, and no stream is closed over chunks of its request, every request that was given a
stream has its own chunks handed over once, and is answered with its own message. -/
theorem paired_of_unshared {urls : List Request}
    (hRun : Reaches (ClientUpdater.step cid local') Unshared (start urls) s) {number : ℕ} {c : CarriedRequest}
    (hCarried : s.carried[number]? = some c) : s.Paired number c :=
  (hRun.invariant (P := Sound) (sound_start urls) fun _ _ _ hSound hUnshared hStep =>
    hSound.step hUnshared hStep).paired number c hCarried

/-- The URL of a file that is not of the tree protocol. -/
def fileUrl : Request := ⟨str "https", str "localhost", str "/a.txt", str "GET", 3, 0⟩

theorem paired_of_unshared_fileUrl : ∃ s, Reaches (ClientUpdater.step [] fun _ _ => .ok ()) Unshared
      (start [fileUrl]) s ∧
    ∃ c, s.carried[0]? = some c ∧ s.Paired 0 c ∧ s.sent ⟨[], 2⟩ = [.ofSignal (.payload ⟨2, 0xFF, 0⟩) []] := by
  have hEnqueued : Reaches (ClientUpdater.step [] fun _ _ => .ok ()) Unshared (start [fileUrl]) _ :=
    .single (show Unshared _ (.enqueue 0 .staticNodeData) from trivial) rfl
  have hMaintained := hEnqueued.tail
    (show Unshared _ (.maintain 0 1) from fun _ _ _ _ _ hKnown => by cases hKnown)
    (show ClientUpdater.step _ _ _ (.maintain 0 1) = some _ from rfl)
  have hTaken := hMaintained.tail (show Unshared _ .take from trivial)
    (show ClientUpdater.step _ _ _ .take = some _ from rfl)
  have hStored := hTaken.tail (show Unshared _ .store from trivial)
    (show ClientUpdater.step _ _ _ .store = some _ from rfl)
  have hSent := hStored.tail (show Unshared _ (.pop [⟨[], 2⟩] 1) from trivial)
    (show ClientUpdater.step _ _ _ (.pop [⟨[], 2⟩] 1) = some _ from rfl)
  exact ⟨_, hSent, _, rfl, paired_of_unshared hSent rfl, by decide +kernel⟩

/-- The bytes of the file as they come in. -/
def fileChunk : SharedSpan := .ofSignal .noChunk (str "text")

/-- A handler whose message has a file. -/
theorem messageHandler_file {m pushed : HTTP3TreeMessage} {stream : StreamIdentifier}
    {response : List SharedSpan}
    (hPushed : { m with requestChunks := [] }.pushResponseChunks response = .ok pushed)
    (hComplete : pushed.responseComplete = true) (hSignal : pushed.signal = 0x00) :
    messageHandler (fun _ => .ok ()) false stream m response =
      .ok ⟨{ pushed with responseChunks := [], processingFinished := true },
        m.requestChunks ++ [closeStream stream], true, true⟩ := by
  obtain ⟨requestId, signal, isInitialized, requestChunks, requestComplete, responseChunks,
    responseComplete, processingFinished⟩ := pushed
  cases hComplete
  cases hSignal
  rw [messageHandler]
  dsimp only [HTTP3TreeMessage.popRequestChunks]
  rw [hPushed, Outcome.ok_bind, if_neg (fun h => Bool.noConfusion h.2.2.1), respond, if_pos rfl,
    HTTP3TreeMessage.processHTTP3Response, HTTP3TreeMessage.decodeBySignal]
  dsimp only
  rw [ServerRoute.popResponseChunks_eq]
  dsimp only
  rw [Bool.or_true]
  rfl

theorem callHandler_of_ok {handler : ClientHandler} {rest : List ClientHandler} {req : Request}
    {ongoing : OngoingRequest} {handled : Handled}
    (h : messageHandler (local' handler.backend) req.isWWATP handler.stream ongoing.message
      (s.connector.tables.incomingChunks handler.stream) = .ok handled) :
    s.callHandler local' handler rest req ongoing = { s with
      connector := s.setIncoming handler.stream []
      requestorQueue := if handled.finished then rest.filter (·.stream ≠ handler.stream) else rest
      ongoingRequests := Function.update s.ongoingRequests handler.stream (some ⟨ongoing.number,
        handled.message, ongoing.pushed ++ s.connector.tables.incomingChunks handler.stream⟩)
      carried := s.carried.modify handler.number fun c => { c with
        responses := c.responses ++ if handled.answered then
          [(ongoing.number, ongoing.pushed ++ s.connector.tables.incomingChunks handler.stream)] else [] }
      worker := .returned handler handled.processed } := by
  rw [callHandler]
  dsimp only
  rw [h]

/-- A file is asked for and received; when it is asked for again, nothing is sent, and the
message of the first request is processed once more. -/
theorem not_paired_again : ∃ s, Reaches (ClientUpdater.step [] fun _ _ => .ok ()) anyStep
      (start [fileUrl]) s ∧
    ∃ c, s.carried[1]? = some c ∧ c.responses = [(0, [fileChunk, closeStream ⟨[], 2⟩])] ∧
      s.sent ⟨[], 2⟩ = [.ofSignal (.payload ⟨2, 0xFF, 0⟩) []] ∧ ¬s.Paired 1 c := by
  have hEnqueued : Reaches (ClientUpdater.step [] fun _ _ => .ok ()) anyStep (start [fileUrl]) _ :=
    .single trivial (show ClientUpdater.step _ _ _ (.enqueue 0 .staticNodeData) = some _ from rfl)
  have hMaintained := hEnqueued.tail trivial
    (show ClientUpdater.step _ _ _ (.maintain 0 1) = some _ from rfl)
  have hTaken := hMaintained.tail trivial (show ClientUpdater.step _ _ _ .take = some _ from rfl)
  have hStored := hTaken.tail trivial (show ClientUpdater.step _ _ _ .store = some _ from rfl)
  have hSent := hStored.tail trivial
    (show ClientUpdater.step _ _ _ (.pop [⟨[], 2⟩] 1) = some _ from rfl)
  have hReceived := hSent.tail trivial
    (show ClientUpdater.step _ _ _ (.pushIncomingChunk fileChunk fileUrl) = some _ from rfl)
  have hEnded := hReceived.tail trivial
    (show ClientUpdater.step _ _ _ (.pushIncomingChunk (closeStream ⟨[], 2⟩) fileUrl) = some _ from rfl)
  have hAnswered := hEnded.tail trivial (show ClientUpdater.step _ _ _ .take = some _ from
    congrArg some (callHandler_of_ok (messageHandler_file rfl rfl rfl)))
  have hClosing := hAnswered.tail trivial (show ClientUpdater.step _ _ _ .store = some _ from rfl)
  have hErasing := hClosing.tail trivial
    (show ClientUpdater.step _ _ _ .eraseIncoming = some _ from rfl)
  have hClosed := hErasing.tail trivial
    (show ClientUpdater.step _ _ _ .eraseOutgoing = some _ from rfl)
  have hAgain := hClosed.tail trivial
    (show ClientUpdater.step _ _ _ (.enqueue 0 .staticNodeData) = some _ from rfl)
  have hKept := hAgain.tail trivial
    (show ClientUpdater.step _ _ _ (.maintain 0 1) = some _ from rfl)
  have hLast := hKept.tail trivial (show ClientUpdater.step _ _ _ .take = some _ from
    congrArg some (callHandler_of_ok (messageHandler_file rfl rfl rfl)))
  refine ⟨_, hLast, _, rfl, rfl, by decide +kernel, fun hPaired => ?_⟩
  have hNumber := (hPaired.responses _ List.mem_cons_self).1
  cases hNumber

end ClientUpdater

end Wwatp
