import Wwatp.Cxx.Transitions
import Wwatp.Message.TransactionCodec
import Wwatp.Server.Batching
import Wwatp.Transport.StreamIdentifiers

/-! The identifiers of streams come round again. A stream is cleaned up after its response,
but a heartbeat may still arrive for it, and makes a new message. -/
namespace Wwatp

open Cxx

/-- Where a worker is in `QuicListener::processResponseStream`, between its sections. -/
inductive Stage
  | waiting
  /-- the callback has returned -/
  | returned (stream : StreamIdentifier) (processed : List SharedSpan)
  /-- `signal_closed`, before the signal is fed back to the callback -/
  | closing (stream : StreamIdentifier) (processed : List SharedSpan)
  | cleaning (stream : StreamIdentifier)
  /-- the incoming chunks are erased, the outgoing ones not yet -/
  | erasing (stream : StreamIdentifier)
  /-- an exception has ended the worker -/
  | stopped

namespace Stage

/-- The stream whose handler the worker may put back into the queue. -/
def handled : Stage → Option StreamIdentifier
  | returned stream _ => some stream
  | closing stream _ => some stream
  | _ => none

end Stage

/-- A listener whose streams are all served by one route. `received` records the chunks that
have arrived for each stream since its last cleanup. -/
structure StreamServer (σ : Type) where
  streams : RouteStreams σ
  tables : StreamTables := {}
  responderQueue : List StreamIdentifier := []
  worker : Stage := .waiting
  received : StreamIdentifier → List SharedSpan := fun _ => []

namespace StreamServer

variable {σ : Type}

inductive Action
  | prepareHandler (stream : StreamIdentifier) (req : Request)
  | pushIncomingChunk (cid : Str) (chunk : SharedSpan)
  | take
  | store
  | feedBack
  | eraseIncoming
  | eraseOutgoing
  | pop (streams : List StreamIdentifier) (n : ℕ)

/-- `pushIncomingChunk` prepares a handler for a stream that has none in the queue. -/
def prepareHandler (s : StreamServer σ) (stream : StreamIdentifier) (req : Request) : StreamServer σ :=
  if stream ∈ s.responderQueue then s
  else { s with
    responderQueue := s.responderQueue ++ [stream]
    tables := s.tables.insertReturnPath stream req }

/-- The last section of `pushIncomingChunk`. -/
def pushIncoming (s : StreamServer σ) (stream : StreamIdentifier) (chunk : SharedSpan) :
    StreamServer σ :=
  { s with
    tables := { s.tables with
      incomingChunks := Function.update s.tables.incomingChunks stream
        (s.tables.incomingChunks stream ++ [chunk]) }
    received := Function.update s.received stream (s.received stream ++ [chunk]) }

/-- The callback is called with the incoming chunks of the stream. -/
def callBack (B : Backend σ) (s : StreamServer σ) (stream : StreamIdentifier)
    (rest : List StreamIdentifier) : StreamServer σ :=
  let (outcome, streams) :=
    ServerRoute.processResponseStream B stream (s.tables.incomingChunks stream) s.streams
  { s with
    streams := streams
    tables := { s.tables with
      incomingChunks := Function.update s.tables.incomingChunks stream [] }
    responderQueue := rest
    worker := match outcome with
      | .ok processed => .returned stream processed
      | .error _ => .stopped }

/-- The section over the outgoing chunks, and the one that keeps the handler. -/
def storeProcessed (s : StreamServer σ) (stream : StreamIdentifier) (processed : List SharedSpan) :
    StreamServer σ :=
  match QuicListener.sortResponse s.tables stream processed with
  | .ok .queued => { s with
      tables := s.tables.appendOutgoing stream processed
      responderQueue := s.responderQueue ++ [stream]
      worker := .waiting }
  | .ok .dropped => { s with responderQueue := s.responderQueue ++ [stream], worker := .waiting }
  | .ok .closing => { s with worker := .closing stream processed }
  | .error _ => { s with worker := .stopped }

/-- The close signal goes back to the callback, whose result is not looked at. -/
def feedBack (B : Backend σ) (s : StreamServer σ) (stream : StreamIdentifier)
    (processed : List SharedSpan) : StreamServer σ :=
  let (outcome, streams) := ServerRoute.processResponseStream B stream processed s.streams
  { s with
    streams := streams
    worker := match outcome with
      | .ok _ => .cleaning stream
      | .error _ => .stopped }

def eraseIncoming (s : StreamServer σ) (stream : StreamIdentifier) : StreamServer σ :=
  { s with
    tables := { s.tables with incomingChunks := Function.update s.tables.incomingChunks stream [] }
    worker := .erasing stream
    received := Function.update s.received stream [] }

def eraseOutgoing (s : StreamServer σ) (stream : StreamIdentifier) : StreamServer σ :=
  { s with
    tables := { s.tables with outgoingChunks := s.tables.outgoingChunks.erase stream }
    worker := .waiting }

def step (B : Backend σ) (s : StreamServer σ) : Action → Option (StreamServer σ)
  | .prepareHandler stream req => if req.isWWATP then some (s.prepareHandler stream req) else none
  | .pushIncomingChunk cid chunk =>
    match chunk.getRequestId with
    | .ok id => some (s.pushIncoming ⟨cid, id⟩ chunk)
    | .error _ => none
  | .take =>
    match s.worker, s.responderQueue with
    | .waiting, stream :: rest => some (s.callBack B stream rest)
    | _, _ => none
  | .store =>
    match s.worker with
    | .returned stream processed => some (s.storeProcessed stream processed)
    | _ => none
  | .feedBack =>
    match s.worker with
    | .closing stream processed => some (s.feedBack B stream processed)
    | _ => none
  | .eraseIncoming =>
    match s.worker with
    | .cleaning stream => some (s.eraseIncoming stream)
    | _ => none
  | .eraseOutgoing =>
    match s.worker with
    | .erasing stream => some (s.eraseOutgoing stream)
    | _ => none
  | .pop streams n => some { s with tables := (s.tables.popNOutgoingChunks streams n).1 }

/-- A listener that has not received anything yet. -/
def start (route : ServerRoute σ) : StreamServer σ where
  streams := ⟨route, fun _ => none⟩

/-- Only heartbeats have arrived for the stream since its last cleanup. -/
def OnlyHeartbeats (s : StreamServer σ) (stream : StreamIdentifier) : Prop :=
  ∀ chunk ∈ s.received stream, chunk.isHeartbeat = .ok true

end StreamServer

namespace ServerRoute

variable {σ : Type} {B : Backend σ} {stream other : StreamIdentifier} {request : List SharedSpan}
  {s s' : RouteStreams σ}

/-- The message that heartbeats alone make: its signal is theirs. -/
def heartbeatMessage (stream : StreamIdentifier) : HTTP3TreeMessage where
  requestId := stream.logicalId
  signal := 0x02

theorem payloads_of_heartbeats (h : ∀ chunk ∈ request, chunk.isHeartbeat = .ok true) :
    payloads request = [] := by
  refine List.filter_eq_nil_iff.mpr fun chunk hChunk => ?_
  rw [h chunk hChunk]
  decide

/-- The signal of a heartbeat is that of its header. -/
theorem getSignalSignal_of_isHeartbeat {chunk : SharedSpan} (h : chunk.isHeartbeat = .ok true) :
    chunk.getSignalSignal = .ok 0x02 := by
  obtain ⟨header, hHeader, hSignal⟩ := Outcome.bind_eq_ok.mp h
  rw [SharedSpan.getPayloadSignal] at hHeader
  split at hHeader
  · cases hHeader
  next c rest hChunks =>
  split_ifs at hHeader with hType
  obtain rfl := Except.ok.inj hHeader
  rw [SharedSpan.getSignalSignal, hChunks, hType]
  exact congrArg _ (of_decide_eq_true (Except.ok.inj hSignal))

theorem initializeResponseMessage_heartbeat {chunk : SharedSpan} (h : chunk.isHeartbeat = .ok true)
    (hId : chunk.getRequestId = .ok stream.logicalId) :
    initializeResponseMessage stream chunk = .ok (heartbeatMessage stream) := by
  rw [initializeResponseMessage, hId, Outcome.ok_bind, if_neg (not_not_intro rfl),
    getSignalSignal_of_isHeartbeat h]
  rfl

/-- Heartbeats on a message of heartbeats change nothing. -/
theorem processResponseStream_heartbeats
    (hMessage : s.ongoingResponses stream = some (heartbeatMessage stream))
    (h : ∀ chunk ∈ request, chunk.isHeartbeat = .ok true) :
    processResponseStream B stream request s = (.ok [], s) := by
  have hServe : serve B request (s.route, heartbeatMessage stream) =
      (.ok [], (s.route, heartbeatMessage stream)) := by
    refine serve_incomplete ?_ ?_ rfl
    · rw [payloads_of_heartbeats h]
      exact fun chunk hChunk => absurd hChunk List.not_mem_nil
    · rw [payloads_of_heartbeats h]
      rfl
  rw [processResponseStream_ongoing hMessage rfl hServe, ← hMessage, Function.update_eq_self]

/-- A stream without a message gets one from its first chunk. -/
theorem processResponseStream_initial {front : SharedSpan} {rest : List SharedSpan}
    {m : HTTP3TreeMessage} (hIdle : s.ongoingResponses stream = none)
    (hInitial : initializeResponseMessage stream front = .ok m) :
    processResponseStream B stream (front :: rest) s = processResponseStream B stream (front :: rest)
      { s with ongoingResponses := Function.update s.ongoingResponses stream (some m) } := by
  simp only [processResponseStream, hIdle, hInitial, Function.update_self]

/-- The calls of one stream leave the messages of the others alone. -/
theorem processResponseStream_other (hOther : other ≠ stream) :
    (processResponseStream B stream request s).2.ongoingResponses other = s.ongoingResponses other := by
  have hContinue : ∀ (m : HTTP3TreeMessage) (s : RouteStreams σ),
      (continueStream B stream request m s).2.ongoingResponses other = s.ongoingResponses other := by
    intro m s
    rw [continueStream]
    split_ifs
    · split
      · rfl
      · dsimp only
        split_ifs
        · exact Function.update_of_ne hOther ..
        · rfl
    · exact Function.update_of_ne hOther ..
  unfold processResponseStream
  split
  · exact hContinue _ _
  · split
    · rfl
    · split
      · rfl
      · exact (hContinue _ _).trans (Function.update_of_ne hOther ..)

/-- The close signal ends the message of its stream, if the call returns. -/
theorem processResponseStream_close {chunk : SharedSpan} {response : List SharedSpan}
    (hType : chunk.signalType = 1) (hClose : chunk.isCloseStream = .ok true)
    (h : processResponseStream B stream [chunk] s = (.ok response, s')) :
    s'.ongoingResponses stream = none := by
  have hPush : ∃ fault, chunk.isHeartbeat = .error fault := by
    rw [SharedSpan.isHeartbeat, SharedSpan.getPayloadSignal]
    split
    · exact ⟨_, rfl⟩
    · rw [if_neg (by rw [hType]; decide)]
      exact ⟨_, rfl⟩
  obtain ⟨fault, hFault⟩ := hPush
  have hServe : ∀ m : HTTP3TreeMessage, (serve B [chunk] (s.route, m)).1 = .error fault := by
    intro m
    have hBody : pushChunk chunk (s.route, m) = (.error fault, (s.route, m)) :=
      Effectful.bind_error (congrArg (·, (s.route, m)) hFault)
    have hLoop : Effectful.forEach pushChunk [chunk] (s.route, m) = (.error fault, (s.route, m)) := by
      rw [Effectful.forEach_singleton, hBody]
    exact congrArg Prod.fst (Effectful.bind_error hLoop)
  have hContinue : ∀ (m : HTTP3TreeMessage) (t : RouteStreams σ), t.route = s.route →
      continueStream B stream [chunk] m t = (.ok response, s') → s'.ongoingResponses stream = none := by
    intro m t hRoute hRun
    rw [continueStream] at hRun
    split_ifs at hRun with hFinished
    · have hCleanup : asksForCleanup [chunk] = .ok true := by
        rw [asksForCleanup, if_pos hType, hClose]
      rw [hCleanup] at hRun
      obtain rfl := (Prod.mk.inj hRun).2
      exact Function.update_self ..
    · rw [← hRoute] at hServe
      have hThrown : (serve B [chunk] (t.route, m)).1 = .ok response := congrArg Prod.fst hRun
      rw [hServe] at hThrown
      cases hThrown
  rw [processResponseStream] at h
  split at h
  · exact hContinue _ _ rfl h
  · split at h
    · cases h
    · refine hContinue _ _ ?_ h
      rfl

end ServerRoute

namespace StreamServer

open ServerRoute

variable {σ : Type} {B : Backend σ} {s t : StreamServer σ} {stream other : StreamIdentifier}
  {req : Request} {chunk : SharedSpan}

/-- What the worker is doing is not about a response or a cleanup of the stream. -/
def Spares (stream : StreamIdentifier) : Stage → Prop
  | .returned other processed => other = stream → processed = []
  | .closing other _ => other ≠ stream
  | .cleaning other => other ≠ stream
  | _ => True

/-- A stream on which only heartbeats have arrived: it has no message and they all wait, or
some of them have made one. -/
structure Unanswered (s : StreamServer σ) (stream : StreamIdentifier) : Prop where
  incoming : ∀ chunk ∈ s.tables.incomingChunks stream, chunk.isHeartbeat = .ok true
  outgoing : s.tables.outgoingChunks.queued stream = []
  message : s.streams.ongoingResponses stream = none ∧
      s.tables.incomingChunks stream = s.received stream ∨
    s.streams.ongoingResponses stream = some (heartbeatMessage stream) ∧ s.received stream ≠ []
  spared : Spares stream s.worker

/-- What holds for each stream while the worker runs. -/
structure Sound (s : StreamServer σ) (stream : StreamIdentifier) : Prop where
  named : ∀ chunk ∈ s.tables.incomingChunks stream, chunk.getRequestId = .ok stream.logicalId
  returnPath : stream ∈ s.responderQueue ∨ s.worker.handled = some stream →
    (s.tables.returnPaths stream).isSome
  closing : ∀ processed, s.worker = .closing stream processed →
    (∃ chunk, processed = [chunk] ∧ chunk.signalType = 1 ∧ chunk.isCloseStream = .ok true) ∧
      s.tables.outgoingChunks.queued stream = []
  cleaning : s.worker = .cleaning stream → s.streams.ongoingResponses stream = none ∧
    s.tables.outgoingChunks.queued stream = []
  unanswered : s.OnlyHeartbeats stream → s.Unanswered stream

theorem sound_start (route : ServerRoute σ) (stream : StreamIdentifier) :
    (start route).Sound stream where
  named _ hChunk := absurd hChunk List.not_mem_nil
  returnPath h := h.elim (fun hMem => absurd hMem List.not_mem_nil) fun hNone => by cases hNone
  closing _ h := by cases h
  cleaning h := by cases h
  unanswered _ := ⟨fun _ hChunk => absurd hChunk List.not_mem_nil, rfl, .inl ⟨rfl, rfl⟩, trivial⟩

theorem insertReturnPath_isSome (tables : StreamTables)
    (h : stream = other ∨ (tables.returnPaths stream).isSome) :
    ((tables.insertReturnPath other req).returnPaths stream).isSome := by
  rw [StreamTables.insertReturnPath]
  dsimp only
  by_cases hStream : stream = other
  · subst hStream
    rw [Function.update_self, Option.isSome_or, Option.isSome_some, Bool.or_true]
  · rw [Function.update_of_ne hStream]
    exact h.resolve_left hStream

theorem Sound.prepareHandler (h : s.Sound stream) : (s.prepareHandler other req).Sound stream := by
  rw [StreamServer.prepareHandler]
  split_ifs
  · exact h
  refine ⟨h.named, fun hHandled => ?_, h.closing, h.cleaning, fun hHeard => ?_⟩
  · refine insertReturnPath_isSome s.tables ?_
    rcases hHandled with hQueue | hWorker
    · rcases List.mem_append.mp hQueue with hOld | hNew
      · exact .inr (h.returnPath (.inl hOld))
      · exact .inl (List.mem_singleton.mp hNew)
    · exact .inr (h.returnPath (.inr hWorker))
  · obtain ⟨hIncoming, hOutgoing, hMessage, hSpared⟩ := h.unanswered hHeard
    exact ⟨hIncoming, hOutgoing, hMessage, hSpared⟩

theorem Sound.pushIncoming (h : s.Sound stream) (hId : chunk.getRequestId = .ok other.logicalId) :
    (s.pushIncoming other chunk).Sound stream := by
  by_cases hStream : stream = other
  · subst hStream
    refine ⟨fun c hC => ?_, h.returnPath, h.closing, h.cleaning, fun hHeard => ?_⟩
    · simp only [StreamServer.pushIncoming, Function.update_self] at hC
      rcases List.mem_append.mp hC with hOld | hNew
      · exact h.named c hOld
      · rw [List.mem_singleton.mp hNew, hId]
    · simp only [OnlyHeartbeats, StreamServer.pushIncoming, Function.update_self] at hHeard
      obtain ⟨hIncoming, hOutgoing, hMessage, hSpared⟩ :=
        h.unanswered fun c hC => hHeard c (List.mem_append_left _ hC)
      refine ⟨fun c hC => ?_, hOutgoing, ?_, hSpared⟩
      · simp only [StreamServer.pushIncoming, Function.update_self] at hC
        rcases List.mem_append.mp hC with hOld | hNew
        · exact hIncoming c hOld
        · exact hHeard c (List.mem_append_right _ hNew)
      · simp only [StreamServer.pushIncoming, Function.update_self]
        rcases hMessage with ⟨hNone, hAll⟩ | ⟨hSome, -⟩
        · exact .inl ⟨hNone, by rw [hAll]⟩
        · exact .inr ⟨hSome, List.append_ne_nil_of_right_ne_nil _ (List.cons_ne_nil _ _)⟩
  · refine ⟨?_, h.returnPath, h.closing, h.cleaning, fun hHeard => ?_⟩
    · simp only [StreamServer.pushIncoming, Function.update_of_ne hStream]
      exact h.named
    · simp only [OnlyHeartbeats, StreamServer.pushIncoming, Function.update_of_ne hStream] at hHeard
      obtain ⟨hIncoming, hOutgoing, hMessage, hSpared⟩ := h.unanswered hHeard
      refine ⟨?_, hOutgoing, ?_, hSpared⟩
      · simpa only [StreamServer.pushIncoming, Function.update_of_ne hStream] using hIncoming
      · simpa only [StreamServer.pushIncoming, Function.update_of_ne hStream] using hMessage

/-- Heartbeats alone are not answered, and their message is theirs. -/
theorem Unanswered.callBack (h : s.Unanswered stream)
    (hNamed : ∀ chunk ∈ s.tables.incomingChunks stream, chunk.getRequestId = .ok stream.logicalId) :
    ∃ streams, processResponseStream B stream (s.tables.incomingChunks stream) s.streams =
        (.ok [], streams) ∧
      (streams.ongoingResponses stream = none ∧ s.received stream = [] ∨
        streams.ongoingResponses stream = some (heartbeatMessage stream) ∧ s.received stream ≠ []) := by
  obtain ⟨hIncoming, -, hMessage, -⟩ := h
  rcases hMessage with ⟨hNone, hAll⟩ | ⟨hSome, hReceived⟩
  · rw [← hAll]
    cases hChunks : s.tables.incomingChunks stream with
    | nil =>
      refine ⟨s.streams, ?_, .inl ⟨hNone, rfl⟩⟩
      simp only [processResponseStream, hNone]
    | cons front rest =>
      rw [hChunks] at hIncoming hNamed
      have hInitial := initializeResponseMessage_heartbeat (hIncoming front List.mem_cons_self)
        (hNamed front List.mem_cons_self)
      rw [processResponseStream_initial hNone hInitial]
      exact ⟨_, processResponseStream_heartbeats (Function.update_self ..) hIncoming,
        .inr ⟨Function.update_self .., List.cons_ne_nil _ _⟩⟩
  · exact ⟨s.streams, processResponseStream_heartbeats hSome hIncoming, .inr ⟨hSome, hReceived⟩⟩

/-- The callback has returned for its stream, or thrown. -/
theorem callBack_worker (B : Backend σ) (s : StreamServer σ) (other : StreamIdentifier)
    (rest : List StreamIdentifier) :
    (∃ processed, (s.callBack B other rest).worker = .returned other processed) ∨
      (s.callBack B other rest).worker = .stopped := by
  simp only [StreamServer.callBack]
  split
  · exact .inl ⟨_, rfl⟩
  · exact .inr rfl

theorem Sound.callBack {rest : List StreamIdentifier} (h : s.Sound stream)
    (hQueue : s.responderQueue = other :: rest) : (s.callBack B other rest).Sound stream := by
  have hNotClosing : ∀ processed, (s.callBack B other rest).worker ≠ .closing stream processed := by
    intro processed hWorker
    rcases callBack_worker B s other rest with ⟨_, hReturned⟩ | hStopped
    · cases hReturned.symm.trans hWorker
    · cases hStopped.symm.trans hWorker
  have hNotCleaning : (s.callBack B other rest).worker ≠ .cleaning stream := by
    intro hWorker
    rcases callBack_worker B s other rest with ⟨_, hReturned⟩ | hStopped
    · cases hReturned.symm.trans hWorker
    · cases hStopped.symm.trans hWorker
  by_cases hStream : stream = other
  · subst hStream
    refine ⟨?_, fun _ => h.returnPath (.inl ?_), fun _ hWorker => absurd hWorker (hNotClosing _),
      fun hWorker => absurd hWorker hNotCleaning, fun hHeard => ?_⟩
    · simp only [StreamServer.callBack, Function.update_self]
      exact fun _ hChunk => absurd hChunk List.not_mem_nil
    · rw [hQueue]
      exact List.mem_cons_self
    · have hBefore := h.unanswered hHeard
      obtain ⟨streams, hRun, hMessage⟩ := hBefore.callBack (B := B) h.named
      refine ⟨?_, hBefore.outgoing, ?_, ?_⟩
      · simp only [StreamServer.callBack, Function.update_self]
        exact fun _ hChunk => absurd hChunk List.not_mem_nil
      · simp only [StreamServer.callBack, hRun, Function.update_self]
        rcases hMessage with ⟨hNone, hEmpty⟩ | hSome
        · exact .inl ⟨hNone, hEmpty.symm⟩
        · exact .inr hSome
      · simp only [StreamServer.callBack, hRun]
        exact fun _ => rfl
  · refine ⟨?_, fun hHandled => h.returnPath (.inl ?_), fun _ hWorker => absurd hWorker (hNotClosing _),
      fun hWorker => absurd hWorker hNotCleaning, fun hHeard => ?_⟩
    · simp only [StreamServer.callBack, Function.update_of_ne hStream]
      exact h.named
    · rw [hQueue]
      rcases hHandled with hRest | hWorker
      · exact List.mem_cons_of_mem _ hRest
      · rcases callBack_worker B s other rest with ⟨_, hReturned⟩ | hStopped
        · rw [hReturned] at hWorker
          exact absurd (Option.some.inj hWorker).symm hStream
        · rw [hStopped] at hWorker
          cases hWorker
    · obtain ⟨hIncoming, hOutgoing, hMessage, -⟩ := h.unanswered hHeard
      refine ⟨?_, hOutgoing, ?_, ?_⟩
      · simpa only [StreamServer.callBack, Function.update_of_ne hStream] using hIncoming
      · simpa only [StreamServer.callBack, Function.update_of_ne hStream,
          processResponseStream_other hStream] using hMessage
      · rcases callBack_worker B s other rest with ⟨_, hReturned⟩ | hStopped
        · rw [hReturned]
          exact fun hOther => absurd hOther.symm hStream
        · rw [hStopped]
          trivial

theorem sortResponse_closing {tables : StreamTables} {processed : List SharedSpan}
    (h : QuicListener.sortResponse tables stream processed = .ok .closing) :
    (∃ chunk, processed = [chunk] ∧ chunk.signalType = 1 ∧ chunk.isCloseStream = .ok true) ∧
      tables.outgoingChunks.queued stream = [] := by
  rw [QuicListener.sortResponse] at h
  split_ifs at h
  · cases h
  split at h
  · cases h
  next chunk hAlone =>
  obtain ⟨close, hClose, h⟩ := Outcome.bind_eq_ok.mp h
  have hBoth : (close && tables.outgoingChunks[stream]?.isNone) = true := by
    by_contra hNot
    rw [if_neg hNot] at h
    cases h
  obtain ⟨rfl, hNone⟩ := Bool.and_eq_true_iff.mp hBoth
  constructor
  · unfold isSignalAlone at hAlone
    split at hAlone
    · split_ifs at hAlone with hType
      obtain rfl := Option.some.inj hAlone
      exact ⟨_, rfl, hType, hClose⟩
    · cases hAlone
  · rw [KeyedQueues.queued, Option.isNone_iff_eq_none.mp hNone]
    rfl

/-- The worker may leave a stream, and its handler in a queue. -/
theorem Sound.free {queue : List StreamIdentifier} {worker : Stage} (h : s.Sound stream)
    (hFree : worker = .waiting ∨ worker = .stopped)
    (hPath : stream ∈ queue → (s.tables.returnPaths stream).isSome) :
    Sound { s with responderQueue := queue, worker := worker } stream := by
  refine ⟨h.named, fun hHandled => hPath (hHandled.resolve_right ?_), fun _ hStage => ?_,
    fun hStage => ?_, fun hHeard => ?_⟩
  · rcases hFree with rfl | rfl <;> exact fun hNone => by cases hNone
  · rcases hFree with rfl | rfl <;> cases hStage
  · rcases hFree with rfl | rfl <;> cases hStage
  · obtain ⟨hIncoming, hOutgoing, hMessage, -⟩ := h.unanswered hHeard
    refine ⟨hIncoming, hOutgoing, hMessage, ?_⟩
    rcases hFree with rfl | rfl <;> trivial

/-- A handler put back belongs to a stream with a return path. -/
theorem Sound.storeProcessed {processed : List SharedSpan} (h : s.Sound stream)
    (hWorker : s.worker = .returned other processed) :
    (s.storeProcessed other processed).Sound stream := by
  have hPath : stream ∈ s.responderQueue ++ [other] → (s.tables.returnPaths stream).isSome := by
    intro hQueue
    rcases List.mem_append.mp hQueue with hOld | hNew
    · exact h.returnPath (.inl hOld)
    · exact h.returnPath (.inr (by rw [hWorker, List.mem_singleton.mp hNew]; rfl))
  -- only the stream of the handler may get chunks to send, but not for heartbeats
  have hNothing : s.OnlyHeartbeats stream → stream = other → processed = [] := by
    intro hHeard hStream
    have hSpared := (h.unanswered hHeard).spared
    rw [hWorker] at hSpared
    exact hSpared hStream.symm
  rw [StreamServer.storeProcessed]
  split
  case h_1 hQueued =>
    have hFree := h.free (.inl rfl) hPath
    refine ⟨hFree.named, hFree.returnPath, fun _ hStage => ?_, fun hStage => ?_, fun hHeard => ?_⟩
    · cases hStage
    · cases hStage
    · obtain ⟨hIncoming, hOutgoing, hMessage, hSpared⟩ := hFree.unanswered hHeard
      refine ⟨hIncoming, ?_, hMessage, hSpared⟩
      simp only [StreamTables.appendOutgoing, KeyedQueues.queued_append]
      by_cases hStream : stream = other
      · rw [hNothing hHeard hStream] at hQueued
        cases hQueued
      · rw [Function.update_of_ne hStream, hOutgoing]
  case h_2 => exact h.free (.inl rfl) hPath
  case h_3 hClosing =>
    refine ⟨h.named, fun hHandled => h.returnPath ?_, fun processed' hStage => ?_, fun hStage => ?_,
      fun hHeard => ?_⟩
    · rwa [hWorker]
    · obtain ⟨rfl, rfl⟩ := Stage.closing.inj hStage
      exact sortResponse_closing hClosing
    · cases hStage
    · obtain ⟨hIncoming, hOutgoing, hMessage, -⟩ := h.unanswered hHeard
      refine ⟨hIncoming, hOutgoing, hMessage, fun hStream => ?_⟩
      rw [hNothing hHeard hStream.symm] at hClosing
      cases hClosing
  case h_4 => exact h.free (.inr rfl) fun hQueue => h.returnPath (.inl hQueue)

/-- The feedback comes back to a cleanup, or throws. -/
theorem feedBack_worker (B : Backend σ) (s : StreamServer σ) (other : StreamIdentifier)
    (processed : List SharedSpan) :
    (s.feedBack B other processed).worker = .cleaning other ∧
        (∃ response, (processResponseStream B other processed s.streams).1 = .ok response) ∨
      (s.feedBack B other processed).worker = .stopped := by
  simp only [StreamServer.feedBack]
  split
  next response hRun => exact .inl ⟨rfl, response, hRun⟩
  · exact .inr rfl

theorem Sound.feedBack {processed : List SharedSpan} (h : s.Sound stream)
    (hWorker : s.worker = .closing other processed) : (s.feedBack B other processed).Sound stream := by
  refine ⟨h.named, fun hHandled => h.returnPath (.inl (hHandled.resolve_right ?_)), fun _ hStage => ?_,
    fun hStage => ?_, fun hHeard => ?_⟩
  · rcases feedBack_worker B s other processed with ⟨hCleaning, -⟩ | hStopped
    · rw [hCleaning]
      exact fun hNone => by cases hNone
    · rw [hStopped]
      exact fun hNone => by cases hNone
  · rcases feedBack_worker B s other processed with ⟨hCleaning, -⟩ | hStopped
    · cases hCleaning.symm.trans hStage
    · cases hStopped.symm.trans hStage
  · rcases feedBack_worker B s other processed with ⟨hCleaning, response, hRun⟩ | hStopped
    · obtain rfl := Stage.cleaning.inj (hCleaning.symm.trans hStage)
      obtain ⟨⟨chunk, rfl, hType, hClose⟩, hOutgoing⟩ := h.closing _ hWorker
      exact ⟨processResponseStream_close hType hClose (Prod.ext hRun rfl), hOutgoing⟩
    · cases hStopped.symm.trans hStage
  · obtain ⟨hIncoming, hOutgoing, hMessage, hSpared⟩ := h.unanswered hHeard
    have hStream : other ≠ stream := by
      rw [hWorker] at hSpared
      exact hSpared
    refine ⟨hIncoming, hOutgoing, ?_, ?_⟩
    · simpa only [StreamServer.feedBack, processResponseStream_other hStream.symm] using hMessage
    · rcases feedBack_worker B s other processed with ⟨hCleaning, -⟩ | hStopped
      · rw [hCleaning]
        exact hStream
      · rw [hStopped]
        trivial

theorem Sound.eraseIncoming (h : s.Sound stream) (hWorker : s.worker = .cleaning other) :
    (s.eraseIncoming other).Sound stream := by
  refine ⟨?_, fun hHandled => h.returnPath (.inl (hHandled.resolve_right ?_)), fun _ hStage => ?_,
    fun hStage => ?_, fun hHeard => ?_⟩
  · by_cases hStream : stream = other
    · subst hStream
      simp only [StreamServer.eraseIncoming, Function.update_self]
      exact fun _ hChunk => absurd hChunk List.not_mem_nil
    · simpa only [StreamServer.eraseIncoming, Function.update_of_ne hStream] using h.named
  · exact fun hNone => by cases hNone
  · cases hStage
  · cases hStage
  · by_cases hStream : stream = other
    · subst hStream
      obtain ⟨hNone, hOutgoing⟩ := h.cleaning hWorker
      refine ⟨?_, hOutgoing, .inl ⟨hNone, ?_⟩, trivial⟩
      · simp only [StreamServer.eraseIncoming, Function.update_self]
        exact fun _ hChunk => absurd hChunk List.not_mem_nil
      · simp only [StreamServer.eraseIncoming, Function.update_self]
    · simp only [OnlyHeartbeats, StreamServer.eraseIncoming, Function.update_of_ne hStream] at hHeard
      obtain ⟨hIncoming, hOutgoing, hMessage, -⟩ := h.unanswered hHeard
      refine ⟨?_, hOutgoing, ?_, trivial⟩
      · simpa only [StreamServer.eraseIncoming, Function.update_of_ne hStream] using hIncoming
      · simpa only [StreamServer.eraseIncoming, Function.update_of_ne hStream] using hMessage

/-- Queues that only get shorter keep what holds for each stream. -/
theorem Sound.outgoing {queues : KeyedQueues StreamIdentifier SharedSpan} (h : s.Sound stream)
    (hQueues : s.tables.outgoingChunks.queued stream = [] → queues.queued stream = []) :
    Sound { s with tables := { s.tables with outgoingChunks := queues } } stream where
  named := h.named
  returnPath := h.returnPath
  closing processed hStage := ⟨(h.closing processed hStage).1, hQueues (h.closing processed hStage).2⟩
  cleaning hStage := ⟨(h.cleaning hStage).1, hQueues (h.cleaning hStage).2⟩
  unanswered hHeard := by
    obtain ⟨hIncoming, hOutgoing, hMessage, hSpared⟩ := h.unanswered hHeard
    exact ⟨hIncoming, hQueues hOutgoing, hMessage, hSpared⟩

theorem Sound.eraseOutgoing (h : s.Sound stream) : (s.eraseOutgoing other).Sound stream := by
  have hErased : Sound { s with tables := { s.tables with
      outgoingChunks := s.tables.outgoingChunks.erase other } } stream := by
    refine h.outgoing fun hEmpty => ?_
    rw [KeyedQueues.queued_erase]
    by_cases hStream : stream = other
    · rw [hStream, Function.update_self]
    · rw [Function.update_of_ne hStream, hEmpty]
  exact hErased.free (.inl rfl) fun hQueue => h.returnPath (.inl hQueue)

theorem Sound.pop {streams : List StreamIdentifier} {n : ℕ} (h : s.Sound stream) :
    Sound { s with tables := (s.tables.popNOutgoingChunks streams n).1 } stream := by
  refine h.outgoing fun hEmpty => ?_
  have hAll := KeyedQueues.takenFrom_append_queued s.tables.outgoingChunks streams n stream
  rw [hEmpty] at hAll
  exact (List.append_eq_nil_iff.mp hAll).2

theorem Sound.step {action : Action} (h : s.Sound stream) (hStep : step B s action = some t) :
    t.Sound stream := by
  cases action with
  | prepareHandler other req =>
    rw [StreamServer.step, Option.ite_none_right_eq_some] at hStep
    obtain rfl := Option.some.inj hStep.2
    exact h.prepareHandler
  | pushIncomingChunk cid chunk =>
    rw [StreamServer.step] at hStep
    split at hStep
    next id hId =>
      obtain rfl := Option.some.inj hStep
      exact h.pushIncoming hId
    · cases hStep
  | take =>
    rw [StreamServer.step] at hStep
    split at hStep
    next hQueue =>
      obtain rfl := Option.some.inj hStep
      exact h.callBack hQueue
    · cases hStep
  | store =>
    rw [StreamServer.step] at hStep
    split at hStep
    next hWorker =>
      obtain rfl := Option.some.inj hStep
      exact h.storeProcessed hWorker
    · cases hStep
  | feedBack =>
    rw [StreamServer.step] at hStep
    split at hStep
    next hWorker =>
      obtain rfl := Option.some.inj hStep
      exact h.feedBack hWorker
    · cases hStep
  | eraseIncoming =>
    rw [StreamServer.step] at hStep
    split at hStep
    next hWorker =>
      obtain rfl := Option.some.inj hStep
      exact h.eraseIncoming hWorker
    · cases hStep
  | eraseOutgoing =>
    rw [StreamServer.step] at hStep
    split at hStep
    · obtain rfl := Option.some.inj hStep
      exact h.eraseOutgoing
    · cases hStep
  | pop streams n =>
    obtain rfl := Option.some.inj hStep
    exact h.pop

/-- Every stream is sound in every state of a run. -/
theorem sound {route : ServerRoute σ} (hRun : Reaches (step B) anyStep (start route) s)
    (stream : StreamIdentifier) : s.Sound stream :=
  hRun.invariant (P := fun s => s.Sound stream) (sound_start route stream)
    fun _ _ _ hSound _ hStep => hSound.step hStep

/-- What waits for a stream comes before the first of the batches. -/
def behind (incoming : List SharedSpan) : List (List SharedSpan) → List (List SharedSpan)
  | [] => []
  | batch :: rest => (incoming ++ batch) :: rest

/-- A complete request on the stream is answered as on one never used before: whatever has
become of the route since, the calls it is served by do and return the same as if the stream
had no message and no chunks; no chunk of an older response is sent with the response; and
what is planned for the request includes the stream. -/
structure AnsweredAsNew (B : Backend σ) (s : StreamServer σ) (stream : StreamIdentifier)
    (req : Request) : Prop where
  served : ∀ request done batches, Recognised stream request done → SplitOf request batches →
    ∀ route, processBatches B stream (behind (s.tables.incomingChunks stream) batches)
        ⟨route, s.streams.ongoingResponses⟩ =
      processBatches B stream batches ⟨route, Function.update s.streams.ongoingResponses stream none⟩
  alone : s.tables.outgoingChunks.queued stream = []
  planned : (s.prepareHandler stream req).tables.matchingIdentifiers req [stream] = [stream]

/-- The return path of an older request stays, so that no other request is planned for. -/
theorem planned_iff (h : s.Sound stream) :
    (s.prepareHandler stream req).tables.matchingIdentifiers req [stream] = [stream] ↔
      ∀ known, s.tables.returnPaths stream = some known → known = req := by
  have hMatching : ∀ tables : StreamTables, tables.matchingIdentifiers req [stream] = [stream] ↔
      tables.returnPaths stream = some req := by
    intro tables
    rw [StreamTables.matchingIdentifiers, List.filter_eq_self]
    simp
  rw [hMatching, StreamServer.prepareHandler]
  split_ifs with hQueue
  · obtain ⟨known, hKnown⟩ := Option.isSome_iff_exists.mp (h.returnPath (.inl hQueue))
    simp [hKnown]
  · rw [StreamTables.insertReturnPath]
    dsimp only
    rw [Function.update_self]
    cases s.tables.returnPaths stream <;> simp

/-- A request without any operation. -/
def deregisterChunk (stream : StreamIdentifier) : SharedSpan :=
  payloadSpan stream.logicalId 0x1B (str "listener label")

/-- The message of the request, on a message begun with the signal. -/
def deregisterMessage (stream : StreamIdentifier) (signal : UInt8) : HTTP3TreeMessage where
  requestId := stream.logicalId
  signal := signal
  isInitialized := true
  requestChunks := [deregisterChunk stream]
  requestComplete := true

theorem pushRequestChunk_deregister (stream : StreamIdentifier) (signal : UInt8) :
    HTTP3TreeMessage.pushRequestChunk { requestId := stream.logicalId, signal := signal }
      (deregisterChunk stream) = .ok (deregisterMessage stream signal) := by
  have hFits : (str "listener label").length ≤ maxPayload := by decide +kernel
  have hSignal : (deregisterChunk stream).getSignalSignal = .ok 0x1B :=
    SharedSpan.getSignalSignal_ofSignal _ _
  have hId : (deregisterChunk stream).getRequestId = .ok stream.logicalId :=
    SharedSpan.getRequestId_ofSignal _ _
  have hLabel : canDecodeLabel 0 [deregisterChunk stream] = .ok (some 1) :=
    canDecodeLabel_payloadSpan stream.logicalId 0x1B hFits rfl
  have hCan : canDecodeRequest 0x1B [deregisterChunk stream] = .ok (some 1) := hLabel
  simp only [HTTP3TreeMessage.pushRequestChunk, HTTP3TreeMessage.adoptRequestId, hSignal, hId, hCan,
    List.nil_append, List.length_singleton, Outcome.ok_bind, Outcome.pure_eq_ok, if_true]
  rfl

theorem isHeartbeat_deregister (stream : StreamIdentifier) :
    (deregisterChunk stream).isHeartbeat = .ok false := by
  rw [SharedSpan.isHeartbeat, deregisterChunk,
    payloadSpan, SharedSpan.getPayloadSignal_ofSignal]
  rfl

theorem initializeResponseMessage_deregister (stream : StreamIdentifier) :
    initializeResponseMessage stream (deregisterChunk stream) =
      .ok { requestId := stream.logicalId, signal := 0x1B } := by
  rw [initializeResponseMessage, deregisterChunk, payloadSpan, SharedSpan.getRequestId_ofSignal,
    Outcome.ok_bind, if_neg (not_not_intro rfl), SharedSpan.getSignalSignal_ofSignal]
  rfl

theorem recognised_deregister (stream : StreamIdentifier) :
    Recognised stream [deregisterChunk stream] (deregisterMessage stream 0x1B) :=
  recognised_singleton (isHeartbeat_deregister stream) (initializeResponseMessage_deregister stream)
    ((congrArg (· >>= _) (pushRequestChunk_deregister stream 0x1B)).trans rfl) rfl

/-- A message begun by a heartbeat is never answered. -/
theorem processResponseStream_deregister {streams : RouteStreams σ} {heartbeats : List SharedSpan}
    (hMessage : streams.ongoingResponses stream = some (heartbeatMessage stream))
    (hHeartbeats : ∀ chunk ∈ heartbeats, chunk.isHeartbeat = .ok true) :
    (processResponseStream B stream (heartbeats ++ [deregisterChunk stream]) streams).1 =
      .error (.invalidArgument (str "Unknown signal")) := by
  have hPayloads : payloads (heartbeats ++ [deregisterChunk stream]) = [deregisterChunk stream] := by
    rw [payloads, List.filter_append]
    refine (congrArg₂ _ (payloads_of_heartbeats hHeartbeats) ?_).trans (List.nil_append _)
    rw [List.filter_cons_of_pos (by rw [isHeartbeat_deregister]; decide), List.filter_nil]
  have hLoop : Effectful.forEach pushChunk (heartbeats ++ [deregisterChunk stream])
      (streams.route, heartbeatMessage stream) =
        (.ok (), (streams.route, deregisterMessage stream 0x02)) := by
    refine forEach_pushChunk ?_ ?_
    · rw [hPayloads]
      exact List.forall_mem_singleton.mpr (isHeartbeat_deregister stream)
    · rw [hPayloads]
      exact (congrArg (· >>= _) (pushRequestChunk_deregister stream 0x02)).trans rfl
  have hServe : (serve B (heartbeats ++ [deregisterChunk stream])
      (streams.route, heartbeatMessage stream)).1 =
        .error (.invalidArgument (str "Unknown signal")) := by
    rw [serve, Effectful.bind_ok hLoop]
    rfl
  simp only [processResponseStream, hMessage, continueStream]
  exact hServe

/-- The request alone is answered. -/
theorem processBatches_deregister (streams : RouteStreams σ)
    (hIdle : streams.ongoingResponses stream = none) :
    ∃ responses after, processBatches B stream [[deregisterChunk stream]] streams =
      (.ok responses, after) := by
  have hPayloads : payloads [deregisterChunk stream] = [deregisterChunk stream] := by
    rw [payloads, List.filter_cons_of_pos (by rw [isHeartbeat_deregister]; decide), List.filter_nil]
  have hBuild : ∃ built, buildResponseChunks B (streams.route, deregisterMessage stream 0x1B) =
      (.ok (), (streams.route, built)) := by
    have hDecode : (deregisterMessage stream 0x1B).decodeDeregisterNodeListenerRequest =
        .ok (str "listener", str "label") := by
      have hLabel : decodeLabel [deregisterChunk stream] = .ok (1, str "listener label") := by
        rw [decodeLabel, deregisterChunk, bytes_payloadSpan]
      simp only [HTTP3TreeMessage.decodeDeregisterNodeListenerRequest,
        HTTP3TreeMessage.checkRequestComplete, deregisterMessage, if_true, hLabel, Outcome.ok_bind]
      decide +kernel
    have hAnswer : answerMessage B (streams.route, deregisterMessage stream 0x1B) =
        (.ok (.deregisterNodeListenerResponse false), (streams.route, deregisterMessage stream 0x1B)) := by
      have hInner : answer B (deregisterMessage stream 0x1B) streams.route =
          (.ok (.deregisterNodeListenerResponse false), streams.route) :=
        Effectful.bind_inspect (f := fun _ =>
          (deregisterMessage stream 0x1B).decodeDeregisterNodeListenerRequest) hDecode
      simp only [answerMessage, hInner]
    rw [buildResponseChunks, Effectful.bind_ok hAnswer]
    exact ⟨_, rfl⟩
  obtain ⟨built, hBuilt⟩ := hBuild
  have hPayload : ∀ chunk ∈ payloads [deregisterChunk stream], chunk.isHeartbeat = .ok false := by
    rw [hPayloads]
    exact List.forall_mem_singleton.mpr (isHeartbeat_deregister stream)
  have hPushed : ({ requestId := stream.logicalId, signal := 0x1B } : HTTP3TreeMessage).pushRequestChunks
      (payloads [deregisterChunk stream]) = .ok (deregisterMessage stream 0x1B) := by
    rw [hPayloads]
    exact (congrArg (· >>= _) (pushRequestChunk_deregister stream 0x1B)).trans rfl
  have hServe := serve_complete hPayload hPushed rfl rfl hBuilt
  rw [processBatches, Effectful.bind_ok ((processResponseStream_initial hIdle
    (initializeResponseMessage_deregister stream)).trans (processResponseStream_ongoing
      (Function.update_self ..) rfl hServe))]
  exact ⟨_, _, rfl⟩

/-- Once a heartbeat has arrived on its own, requests are not answered any more. -/
theorem not_answeredAsNew_of_heartbeat (hSound : s.Sound stream) (hHeard : s.OnlyHeartbeats stream)
    (hReceived : s.received stream ≠ []) : ¬s.AnsweredAsNew B stream req := by
  intro hNew
  obtain ⟨hIncoming, -, hMessage, -⟩ := hSound.unanswered hHeard
  have hSame := hNew.served _ _ [[deregisterChunk stream]] (recognised_deregister stream)
    ⟨rfl, by
      rw [List.flatten_cons, List.flatten_nil, List.append_nil, payloads,
        List.filter_cons_of_pos (by rw [isHeartbeat_deregister]; decide), List.filter_nil]⟩
    s.streams.route
  have hIdle : (⟨s.streams.route, Function.update s.streams.ongoingResponses stream none⟩ :
      RouteStreams σ).ongoingResponses stream = none := Function.update_self ..
  obtain ⟨responses, after, hAnswered⟩ := processBatches_deregister (B := B) _ hIdle
  have hThrows : ∃ fault, (processResponseStream B stream
      (s.tables.incomingChunks stream ++ [deregisterChunk stream]) s.streams).1 = .error fault := by
    rcases hMessage with ⟨hNone, hAll⟩ | ⟨hSome, -⟩
    · -- the first of the heartbeats that wait makes the message
      cases hChunks : s.tables.incomingChunks stream with
      | nil => exact absurd (hAll.symm.trans hChunks) hReceived
      | cons front rest =>
        rw [hChunks] at hIncoming
        have hInitial := initializeResponseMessage_heartbeat (hIncoming front List.mem_cons_self)
          (hSound.named front (hChunks ▸ List.mem_cons_self))
        rw [List.cons_append, processResponseStream_initial hNone hInitial, ← List.cons_append]
        exact ⟨_, processResponseStream_deregister (Function.update_self ..) hIncoming⟩
    · exact ⟨_, processResponseStream_deregister hSome hIncoming⟩
  obtain ⟨fault, hFault⟩ := hThrows
  rw [hAnswered, behind, processBatches, Effectful.bind_error (Prod.ext hFault rfl)] at hSame
  cases hSame

/-- In every state of a run where only heartbeats have arrived for a stream since its last
cleanup, a request on it is answered as on a new one exactly if there was no heartbeat
either, and no other request has used the stream. -/
theorem answeredAsNew_iff {route : ServerRoute σ} (hRun : Reaches (step B) anyStep (start route) s)
    (hHeard : s.OnlyHeartbeats stream) :
    s.AnsweredAsNew B stream req ↔ s.received stream = [] ∧
      ∀ known, s.tables.returnPaths stream = some known → known = req := by
  have hSound := sound hRun stream
  constructor
  · intro hNew
    refine ⟨?_, (planned_iff hSound).mp hNew.planned⟩
    by_contra hReceived
    exact not_answeredAsNew_of_heartbeat hSound hHeard hReceived hNew
  · rintro ⟨hReceived, hPath⟩
    obtain ⟨-, hOutgoing, hMessage, -⟩ := hSound.unanswered hHeard
    obtain ⟨hNone, hIncoming⟩ := hMessage.resolve_right fun hSome => hSome.2 hReceived
    refine ⟨fun request done batches _ _ route => ?_, hOutgoing, (planned_iff hSound).mpr hPath⟩
    have hBehind : behind (s.tables.incomingChunks stream) batches = batches := by
      rw [hIncoming, hReceived]
      cases batches <;> rfl
    rw [hBehind, ← hNone, Function.update_eq_self]

/-- A stream that has not been used. -/
theorem answeredAsNew_start :
    (start idleStreams.route).AnsweredAsNew emptyBackend ⟨[], 2⟩ StreamEvent.treeRequest.val :=
  (answeredAsNew_iff .refl fun _ hChunk => absurd hChunk List.not_mem_nil).mpr
    ⟨rfl, fun _ hKnown => by cases hKnown⟩

/-- What is left of a request for a node that does not exist. -/
def answeredMessage : HTTP3TreeMessage where
  requestId := 2
  signal := 0x08
  isInitialized := true
  requestChunks := [payloadSpan 2 0x07 (str "A")]
  requestComplete := true
  responseComplete := true
  processingFinished := true

theorem processResponseStream_getNode :
    processResponseStream emptyBackend ⟨[], 2⟩ [payloadSpan 2 0x07 (str "A")] idleStreams =
      (.ok [payloadSpan 2 0x08 (leBytes 8 7 ++ str "Nothing")],
        ⟨{ idleStreams.route with backendCalls := [.getNode (str "A")] },
          Function.update idleStreams.ongoingResponses ⟨[], 2⟩ (some answeredMessage)⟩) := by
  have hServe : serve emptyBackend [payloadSpan 2 0x07 (str "A")]
      (idleStreams.route, { requestId := 2, signal := 0x07 }) = (.ok _, _) :=
    serve_complete (by decide) rfl rfl rfl rfl
  rw [finishedMessage, popResponseChunks_eq] at hServe
  have hFirst : initializeResponseMessage ⟨[], 2⟩ (payloadSpan 2 0x07 (str "A")) =
      .ok { requestId := 2, signal := 0x07 } := rfl
  have hServed := processResponseStream_ongoing (B := emptyBackend) (s := { idleStreams with
      ongoingResponses := Function.update idleStreams.ongoingResponses ⟨[], 2⟩ (some _) })
    (Function.update_self ..) rfl hServe
  rw [processResponseStream_initial rfl hFirst, hServed, Function.update_idem]
  rfl

theorem callBack_of_ok {rest : List StreamIdentifier} {processed : List SharedSpan}
    {streams : RouteStreams σ}
    (h : processResponseStream B stream (s.tables.incomingChunks stream) s.streams =
      (.ok processed, streams)) :
    s.callBack B stream rest = { s with
      streams := streams
      tables := { s.tables with
        incomingChunks := Function.update s.tables.incomingChunks stream [] }
      responderQueue := rest
      worker := .returned stream processed } := by
  rw [StreamServer.callBack, h]

/-- The request for a node is answered and its stream cleaned up; then a heartbeat arrives. -/
theorem not_answeredAsNew_late : ∃ s, Reaches (step emptyBackend) anyStep (start idleStreams.route) s ∧
    s.worker = .waiting ∧ s.received ⟨[], 2⟩ = [payloadSpan 2 0x02 []] ∧
      ¬s.AnsweredAsNew emptyBackend ⟨[], 2⟩ StreamEvent.treeRequest.val := by
  have hPrepare : ∀ s : StreamServer Unit,
      step emptyBackend s (.prepareHandler ⟨[], 2⟩ StreamEvent.treeRequest.val) =
        some (s.prepareHandler ⟨[], 2⟩ StreamEvent.treeRequest.val) := by
    intro s
    rw [step, if_pos StreamEvent.treeRequest.property]
  have hPrepared : Reaches (step emptyBackend) anyStep (start idleStreams.route) _ :=
    .single trivial (hPrepare _)
  have hRun := hPrepared.tail trivial
    (show step _ _ (.pushIncomingChunk [] (payloadSpan 2 0x07 (str "A"))) = some _ from rfl)
  have hTaken := hRun.tail trivial (show step _ _ .take = some _ from
    congrArg some (callBack_of_ok processResponseStream_getNode))
  have hAnswered := hTaken.tail trivial (show step _ _ .store = some _ from rfl)
  have hSent := hAnswered.tail trivial (show step _ _ (.pop [⟨[], 2⟩] 1) = some _ from rfl)
  have hClose := hSent.tail trivial (show step _ _ .take = some _ from rfl)
  have hClosing := hClose.tail trivial (show step _ _ .store = some _ from rfl)
  have hFed := hClosing.tail trivial (show step _ _ .feedBack = some _ from rfl)
  have hErasing := hFed.tail trivial (show step _ _ .eraseIncoming = some _ from rfl)
  have hCleaned := hErasing.tail trivial (show step _ _ .eraseOutgoing = some _ from rfl)
  have hLate := (hCleaned.tail trivial (hPrepare _)).tail trivial
    (show step _ _ (.pushIncomingChunk [] (payloadSpan 2 0x02 [])) = some _ from rfl)
  refine ⟨_, hLate, rfl, rfl, ?_⟩
  refine not_answeredAsNew_of_heartbeat (sound hLate _) ?_ (List.cons_ne_nil _ _)
  exact List.forall_mem_singleton.mpr rfl

end StreamServer

end Wwatp
