import Wwatp.Message.ClientMessage
import Wwatp.Transport.Framing

/-! Writes through the C facade of the connector. What is written waits in the stream until the connector calls
the stream's callback, which hands it over. -/
namespace Wwatp

open Cxx

/-- The bytes behind `use_chunk` of the size `use_chunk_size`, which the connector sends for a span. -/
def SharedSpan.useChunk (s : SharedSpan) : Outcome (List UInt8) :=
  match s.chunks with
  | [c] => do return c.data.take (c.size + (← s.getSignalSize))
  | _ => throw (.invalidArgument (str "use_chunk can only be called on a shared_span with one chunk"))

/-- `wwatp_quic_stream_t` -/
structure FacadeStream where
  requestId : UInt16
  wwatpSignal : UInt8 := 0
  closed : Bool := false
  outgoing : List SharedSpan := []
  halfClose : Bool := false
  incoming : List SharedSpan := []
  remoteEos : Bool := false
  sentAny : Bool := false

namespace FacadeStream

/-- The loop over bytes that are framed already: the chunks it puts into the queue. Every chunk is made of all the
bytes that are left, and the loop advances by the size in its header. -/
def enqueueFramed (requestId : UInt16) : ℕ → List UInt8 → List SharedSpan × Outcome Unit
  | 0, _ => ([], .ok ())
  | _ + 1, [] => ([], .ok ())
  | fuel + 1, data@(_ :: _) =>
    match SharedSpan.createFromData data with
    | .error e => ([], .error e)
    | .ok created =>
      let sp := (created.setRequestId requestId).toOption.getD created
      let wire := sp.getWireSize.toOption.getD sp.storedSize
      if wire = 0 ∨ wire > data.length then ([], .ok ())
      else
        let (queued, outcome) := enqueueFramed requestId fuel (data.drop wire)
        (sp :: queued, outcome)

/-- Bytes that are not framed become payload chunks under the signal of the stream. -/
def wrapRaw (stream : FacadeStream) (data : List UInt8) : List SharedSpan :=
  let signal := if stream.wwatpSignal ≠ 0 then stream.wwatpSignal else 0x17
  let header : PayloadChunkHeader := ⟨stream.requestId, signal, 0⟩
  (SharedSpan.ofSignal (.payload header) data).flattenWithSignal header

/-- `WWATP_QUIC_ERR_IO` -/
def ioError : ℤ := -3

/-- `wwatp_quic_stream_write`. The result is the number of bytes or the error code of a closed stream. -/
def write (stream : FacadeStream) (data : List UInt8) (endStream : Bool) : FacadeStream × Outcome ℤ :=
  if stream.closed then (stream, .ok ioError)
  else
    let (queued, outcome) : List SharedSpan × Outcome Unit :=
      match data with
      | [] => ([], .ok ())
      | front :: _ =>
        if front = 1 ∨ front = 2 then enqueueFramed stream.requestId data.length data
        else (stream.wrapRaw data, .ok ())
    let stream := { stream with outgoing := stream.outgoing ++ queued }
    match outcome with
    | .error e => (stream, .error e)
    | .ok () => ({ stream with halfClose := stream.halfClose || endStream }, .ok data.length)

/-- Whether a chunk ends the response: `RESPONSE_FINAL` or `CLOSE_STREAM`. -/
def endsResponse (ch : SharedSpan) : Outcome Bool :=
  if ch.signalType = 2 then do return decide ((← ch.getSignalSignal) = 0x06)
  else if ch.signalType = 1 then do return decide ((← ch.getSignalSignal) = 0x01)
  else .ok false

def anyEndsResponse : List SharedSpan → Outcome Bool
  | [] => .ok false
  | ch :: rest => do return (← endsResponse ch) || (← anyEndsResponse rest)

/-- The callback of `make_stream_cb`: it takes in chunks and returns those that are queued. -/
def callback (stream : FacadeStream) (toProcess : List SharedSpan) : Outcome (FacadeStream × List SharedSpan) := do
  let ended ← anyEndsResponse toProcess
  return ({ stream with
    incoming := stream.incoming ++ toProcess
    remoteEos := stream.remoteEos || ended
    outgoing := []
    sentAny := stream.sentAny || decide (stream.outgoing ≠ []) }, stream.outgoing)

/-- A call on a stream. A write holds complete chunks, and what the connector has received has chunks. -/
inductive Call
  | write (frames : List WireChunk) (endStream : Bool)
  | callback (received : List {s : SharedSpan // s.chunks ≠ []})

namespace Call

/-- The stream after a call, and what it hands to the connector. -/
def perform (stream : FacadeStream) : Call → Outcome (FacadeStream × List SharedSpan)
  | write frames endStream =>
    let (after, outcome) := stream.write (frames.flatMap WireChunk.bytes) endStream
    do
      let _ ← outcome
      return (after, [])
  | callback received => stream.callback (received.map Subtype.val)

/-- The chunks of a write. -/
def frames : Call → List WireChunk
  | write frames _ => frames
  | callback _ => []

end Call

/-- The calls in their order, and all that is handed to the connector. -/
def run (stream : FacadeStream) : List Call → Outcome (FacadeStream × List SharedSpan)
  | [] => .ok (stream, [])
  | call :: rest => do
    let (stream, handed) ← call.perform stream
    let (stream, more) ← stream.run rest
    return (stream, handed ++ more)

end FacadeStream

/-- The chunk under another request id. -/
def WireChunk.withRequestId (w : WireChunk) (requestId : UInt16) : WireChunk where
  header :=
    match w.header with
    | .noChunk => .noChunk
    | .signal h => .signal { h with requestId }
    | .payload h => .payload { h with requestId }
  data := w.data
  legal := by
    obtain ⟨header, data, hLegal⟩ := w
    cases header <;> exact hLegal

namespace WireChunk

variable (w : WireChunk)

@[simp] theorem data_withRequestId (requestId : UInt16) : (w.withRequestId requestId).data = w.data := rfl

/-- Bytes that begin with a chunk are taken for one chunk. -/
theorem createFromData_append (more : List UInt8) :
    SharedSpan.createFromData (w.bytes ++ more) = .ok (.ofSignal w.header (w.data ++ more)) := by
  obtain ⟨header, data, hLegal⟩ := w
  cases header with
  | noChunk => exact hLegal.elim
  | signal h =>
    have hHeader : SignalChunkHeader.ofBytes ((ChunkHeader.signal h).toBytes ++ data ++ more) = h :=
      SignalChunkHeader.ofBytes_toBytes h (data ++ more)
    have hEnough : 4 ≤ ((ChunkHeader.signal h).toBytes ++ data ++ more).length := by simp [ChunkHeader.size]
    exact (congrArg Except.ok (if_pos hEnough)).trans
      (congrArg (fun h => Except.ok (SharedSpan.ofSignal (.signal h) (data ++ more))) hHeader)
  | payload h =>
    have hHeader : PayloadChunkHeader.ofBytes ((ChunkHeader.payload h).toBytes ++ data ++ more) = h :=
      PayloadChunkHeader.ofBytes_toBytes h (data ++ more)
    have hEnough : 6 ≤ ((ChunkHeader.payload h).toBytes ++ data ++ more).length := by simp [ChunkHeader.size]
    exact (congrArg Except.ok (if_pos hEnough)).trans
      (congrArg (fun h => Except.ok (SharedSpan.ofSignal (.payload h) (data ++ more))) hHeader)

theorem setRequestId_ofSignal (requestId : UInt16) (data : List UInt8) :
    (SharedSpan.ofSignal w.header data).setRequestId requestId =
      .ok (.ofSignal (w.withRequestId requestId).header data) := by
  obtain ⟨header, own, hLegal⟩ := w
  cases header with
  | noChunk => exact hLegal.elim
  | signal h => rfl
  | payload h => rfl

/-- The size in the header is that of the chunk alone. -/
theorem getWireSize_ofSignal (data : List UInt8) :
    (SharedSpan.ofSignal w.header data).getWireSize = .ok w.size := by
  rcases w.headerSize_cases with ⟨h, hHeader, -, hSize⟩ | ⟨h, hHeader, -, hSize, -⟩
  · rw [hHeader, hSize]
    rfl
  · rw [hHeader, hSize]
    exact congrArg (fun header => Except.ok (PayloadChunkHeader.wireSize header)) (SharedSpan.ofBytes_ofHeader h data)

@[simp] theorem size_withRequestId (requestId : UInt16) : (w.withRequestId requestId).size = w.size := by
  obtain ⟨header, data, hLegal⟩ := w
  cases header with
  | noChunk => exact hLegal.elim
  | signal h => rfl
  | payload h => simp [size, bytes, withRequestId, ChunkHeader.size]

/-- A chunk of the pool holds the header and the data behind it, if they fit. -/
theorem useChunk_ofSignal (data : List UInt8) : (SharedSpan.ofSignal w.header data).useChunk =
    if data.length ≤ chunkSize - w.headerSize then .ok (w.header.toBytes ++ data)
    else .error (.invalidArgument (str "use_chunk can only be called on a shared_span with one chunk")) := by
  split_ifs with hFits
  · have hSize : (SharedSpan.ofSignal w.header data).getSignalSize = .ok w.headerSize := by
      rcases w.headerSize_cases with ⟨h, hHeader, hSize, -⟩ | ⟨h, hHeader, hSize, -⟩ <;> rw [hHeader, hSize] <;> rfl
    have hWhole : (w.header.toBytes ++ data).length ≤ data.length + w.headerSize := by
      rw [List.length_append, ChunkHeader.toBytes_length, headerSize, Nat.add_comm]
    rw [SharedSpan.ofSignal_of_le hFits] at hSize ⊢
    have hTake : data.take (chunkSize - w.header.size) = data := List.take_of_length_le hFits
    have hBody : (Chunk.ofHeader w.header data).size = data.length := by
      rw [← Chunk.body_length, Chunk.body_ofHeader, hTake]
    have hData : (Chunk.ofHeader w.header data).data = w.header.toBytes ++ data :=
      congrArg (w.header.toBytes ++ ·) hTake
    simp only [SharedSpan.useChunk, hSize, hBody, hData, Outcome.ok_bind, Outcome.pure_eq_ok, List.take_of_length_le hWhole]
  · have hRest : data.drop (chunkSize - w.header.size) ≠ [] := by
      rw [Ne, List.drop_eq_nil_iff]
      exact hFits
    rw [SharedSpan.ofSignal, List.blocks_of_ne_nil (by decide) hRest]
    rfl

/-- A chunk is sent as it is. -/
theorem useChunk_span : w.span.useChunk = .ok w.bytes := by
  have hFits : w.data.length ≤ chunkSize - w.headerSize := by
    have hData := w.data_length_le
    have hHeader := w.header.size_le
    rw [headerSize, chunkSize]
    omega
  rw [span, useChunk_ofSignal, if_pos hFits, bytes]

/-- With more bytes behind it, it is not. -/
theorem useChunk_ne {more : List UInt8} (hMore : more ≠ []) :
    (SharedSpan.ofSignal w.header (w.data ++ more)).useChunk ≠ .ok w.bytes := by
  rw [useChunk_ofSignal]
  split_ifs
  · intro hEq
    have hLength := congrArg List.length (Except.ok.inj hEq)
    rw [bytes, List.length_append, List.length_append, List.length_append] at hLength
    exact hMore (List.length_eq_zero_iff.mp (by omega))
  · simp

end WireChunk

namespace FacadeStream

/-- Over a run that ends with the callback the connector sends exactly the chunks that were written, in order,
each by itself and under the stream's request id. -/
def Delivers (stream : FacadeStream) (calls : List Call) : Prop :=
  ∃ after handed, stream.run (calls ++ [.callback []]) = .ok (after, handed) ∧
    handed.map SharedSpan.useChunk =
      (calls.flatMap Call.frames).map fun w => .ok (w.withRequestId stream.requestId).bytes

/-- What a write puts into the queue: each chunk with all that follows it in the buffer. -/
def queuedFor (requestId : UInt16) : List WireChunk → List SharedSpan
  | [] => []
  | w :: rest => .ofSignal (w.withRequestId requestId).header (w.data ++ rest.flatMap WireChunk.bytes) ::
      queuedFor requestId rest

theorem enqueueFramed_frames (requestId : UInt16) (frames : List WireChunk) {fuel : ℕ}
    (hFuel : (frames.flatMap WireChunk.bytes).length ≤ fuel) :
    enqueueFramed requestId fuel (frames.flatMap WireChunk.bytes) = (queuedFor requestId frames, .ok ()) := by
  induction frames generalizing fuel with
  | nil => cases fuel <;> rfl
  | cons w rest ih =>
    rw [List.flatMap_cons, List.length_append] at hFuel
    rw [List.flatMap_cons]
    have hPos : 0 < w.size := by
      have hHeader := w.headerSize_pos
      have hLe := w.headerSize_le
      omega
    have hSize : w.size = w.bytes.length := rfl
    obtain ⟨tail, hCons⟩ := w.bytes_eq_cons
    have hCreate := w.createFromData_append (rest.flatMap WireChunk.bytes)
    have hDrop : (w.bytes ++ rest.flatMap WireChunk.bytes).drop w.size = rest.flatMap WireChunk.bytes := List.drop_left
    have hLe : ¬(w.size = 0 ∨ w.size > (w.bytes ++ rest.flatMap WireChunk.bytes).length) := by
      rw [List.length_append]
      omega
    cases fuel with
    | zero => omega
    | succ fuel =>
      have hRest := @ih fuel (by omega)
      rw [hCons, List.cons_append] at hCreate hDrop hLe ⊢
      have hSet : ((SharedSpan.ofSignal w.header (w.data ++ rest.flatMap WireChunk.bytes)).setRequestId requestId).toOption.getD
          (.ofSignal w.header (w.data ++ rest.flatMap WireChunk.bytes)) =
            .ofSignal (w.withRequestId requestId).header (w.data ++ rest.flatMap WireChunk.bytes) := by
        rw [w.setRequestId_ofSignal]
        rfl
      have hWire : (SharedSpan.ofSignal (w.withRequestId requestId).header
          (w.data ++ rest.flatMap WireChunk.bytes)).getWireSize.toOption = some w.size := by
        rw [(w.withRequestId requestId).getWireSize_ofSignal, w.size_withRequestId]
        rfl
      simp only [enqueueFramed, hCreate, hSet, hWire, Option.getD_some, if_neg hLe, hDrop, hRest, queuedFor]

theorem length_queuedFor (requestId : UInt16) (frames : List WireChunk) :
    (queuedFor requestId frames).length = frames.length := by
  induction frames with
  | nil => rfl
  | cons w rest ih => rw [queuedFor, List.length_cons, List.length_cons, ih]

/-- What is queued for a buffer is sent right exactly when the buffer holds at most one chunk. -/
theorem useChunk_queuedFor_iff (requestId : UInt16) (frames : List WireChunk) :
    (queuedFor requestId frames).map SharedSpan.useChunk =
        frames.map (fun w => .ok (w.withRequestId requestId).bytes) ↔ frames.length ≤ 1 := by
  rcases frames with _ | ⟨w, _ | ⟨next, rest⟩⟩
  · simp [queuedFor]
  · have hOne := (w.withRequestId requestId).useChunk_span
    rw [WireChunk.span, w.data_withRequestId] at hOne
    simp [queuedFor, hOne]
  · refine iff_of_false (fun hEq => ?_) (by simp)
    have hMore : (next :: rest).flatMap WireChunk.bytes ≠ [] := by
      obtain ⟨tail, hCons⟩ := next.bytes_eq_cons
      rw [List.flatMap_cons, hCons]
      simp
    exact (w.withRequestId requestId).useChunk_ne hMore (List.cons.inj hEq).1

theorem write_frames {stream : FacadeStream} (hOpen : stream.closed = false) (frames : List WireChunk) (endStream : Bool) :
    stream.write (frames.flatMap WireChunk.bytes) endStream = ({ stream with
      outgoing := stream.outgoing ++ queuedFor stream.requestId frames
      halfClose := stream.halfClose || endStream }, .ok (frames.flatMap WireChunk.bytes).length) := by
  have hQueued := enqueueFramed_frames stream.requestId frames (Nat.le_refl _)
  cases frames with
  | nil =>
    simp only [write, hOpen, List.flatMap_nil]
    rfl
  | cons w rest =>
    obtain ⟨tail, hCons⟩ := w.bytes_eq_cons
    have hFramed : w.header.signalType = 1 ∨ w.header.signalType = 2 := by
      rcases w.headerSize_cases with ⟨h, hHeader, -⟩ | ⟨h, hHeader, -⟩ <;> rw [hHeader] <;> simp [ChunkHeader.signalType]
    rw [List.flatMap_cons, hCons, List.cons_append] at hQueued ⊢
    simp only [write, hOpen, Bool.false_eq_true, if_false, if_pos hFramed, hQueued]

theorem endsResponse_ok {ch : SharedSpan} (hChunks : ch.chunks ≠ []) : ∃ ends, endsResponse ch = .ok ends := by
  obtain ⟨c, rest, hCons⟩ := List.exists_cons_of_ne_nil hChunks
  rw [endsResponse, SharedSpan.getSignalSignal, hCons]
  by_cases hPayload : ch.signalType = 2
  · simp [hPayload]
  by_cases hSignal : ch.signalType = 1
  · simp [hSignal]
  · exact ⟨false, by rw [if_neg hPayload, if_neg hSignal]⟩

theorem anyEndsResponse_ok (received : List {s : SharedSpan // s.chunks ≠ []}) :
    ∃ ends, anyEndsResponse (received.map Subtype.val) = .ok ends := by
  induction received with
  | nil => exact ⟨false, rfl⟩
  | cons ch rest ih =>
    obtain ⟨first, hFirst⟩ := endsResponse_ok ch.2
    obtain ⟨more, hMore⟩ := ih
    exact ⟨first || more, by rw [List.map_cons, anyEndsResponse, hFirst, hMore]; rfl⟩

/-- A call on an open stream: what is handed over and what then waits are what waited and what the call queues. -/
theorem perform_open {stream : FacadeStream} (hOpen : stream.closed = false) (call : Call) :
    ∃ after handed, call.perform stream = .ok (after, handed) ∧ after.closed = false ∧
      after.requestId = stream.requestId ∧
      handed ++ after.outgoing = stream.outgoing ++ queuedFor stream.requestId call.frames := by
  cases call with
  | write frames endStream =>
    have hWrite := write_frames hOpen frames endStream
    have hPerform : (Call.write frames endStream).perform stream = .ok ({ stream with
        outgoing := stream.outgoing ++ queuedFor stream.requestId frames
        halfClose := stream.halfClose || endStream }, []) := by
      rw [Call.perform, hWrite]
      rfl
    exact ⟨_, [], hPerform, hOpen, rfl, rfl⟩
  | callback received =>
    obtain ⟨ends, hEnds⟩ := anyEndsResponse_ok received
    have hPerform : (Call.callback received).perform stream = .ok ({ stream with
        incoming := stream.incoming ++ received.map Subtype.val
        remoteEos := stream.remoteEos || ends
        outgoing := []
        sentAny := stream.sentAny || decide (stream.outgoing ≠ []) }, stream.outgoing) := by
      rw [Call.perform, callback, hEnds]
      rfl
    exact ⟨_, stream.outgoing, hPerform, hOpen, rfl, rfl⟩

theorem run_open {stream : FacadeStream} (hOpen : stream.closed = false) (calls : List Call) :
    ∃ after handed, stream.run calls = .ok (after, handed) ∧ after.closed = false ∧
      after.requestId = stream.requestId ∧
      handed ++ after.outgoing =
        stream.outgoing ++ calls.flatMap fun call => queuedFor stream.requestId call.frames := by
  induction calls generalizing stream with
  | nil => exact ⟨stream, [], rfl, hOpen, rfl, (List.append_nil _).symm⟩
  | cons call rest ih =>
    obtain ⟨next, handed, hCall, hNext, hId, hQueue⟩ := perform_open hOpen call
    obtain ⟨after, more, hRun, hAfter, hSame, hAll⟩ := ih hNext
    refine ⟨after, handed ++ more, ?_, hAfter, hSame.trans hId, ?_⟩
    · simp only [run, hCall, hRun, Outcome.ok_bind, Outcome.pure_eq_ok]
    · rw [List.append_assoc, hAll, ← List.append_assoc, hQueue, hId, List.flatMap_cons, List.append_assoc]

theorem run_append (stream : FacadeStream) (first second : List Call) : stream.run (first ++ second) = do
    let (middle, handed) ← stream.run first
    let (after, more) ← middle.run second
    return (after, handed ++ more) := by
  induction first generalizing stream with
  | nil =>
    simp only [List.nil_append, run, Outcome.ok_bind, Outcome.pure_eq_ok]
    cases stream.run second <;> rfl
  | cons call rest ih =>
    simp only [List.cons_append, run, ih]
    cases call.perform stream with
    | error e => rfl
    | ok result =>
      simp only [Outcome.ok_bind]
      cases result.1.run rest with
      | error e => rfl
      | ok middle =>
        simp only [Outcome.ok_bind, Outcome.pure_eq_ok]
        cases middle.1.run second <;> simp [List.append_assoc]

/-- Over a run that ends with the callback, everything that was queued has been handed over. -/
theorem run_drained {stream : FacadeStream} (hOpen : stream.closed = false) (hEmpty : stream.outgoing = [])
    (calls : List Call) : ∃ after, stream.run (calls ++ [.callback []]) =
      .ok (after, calls.flatMap fun call => queuedFor stream.requestId call.frames) := by
  obtain ⟨middle, handed, hRun, -, -, hQueue⟩ := run_open hOpen calls
  rw [hEmpty, List.nil_append] at hQueue
  refine ⟨{ middle with outgoing := [], sentAny := middle.sentAny || decide (middle.outgoing ≠ []) }, ?_⟩
  rw [run_append, hRun, ← hQueue]
  simp [run, Call.perform, callback, anyEndsResponse]

theorem flatMap_eq_flatMap_iff {α β : Type} {f g : α → List β} (hLength : ∀ a, (f a).length = (g a).length)
    (items : List α) : items.flatMap f = items.flatMap g ↔ ∀ a ∈ items, f a = g a := by
  induction items with
  | nil => simp
  | cons a rest ih =>
    rw [List.flatMap_cons, List.flatMap_cons, List.forall_mem_cons, ← ih]
    exact ⟨fun hEq => List.append_inj hEq (hLength a), fun ⟨hFirst, hRest⟩ => by rw [hFirst, hRest]⟩

theorem useChunk_flatMap_iff (requestId : UInt16) (calls : List Call) :
    (calls.flatMap fun call => queuedFor requestId call.frames).map SharedSpan.useChunk =
        (calls.flatMap Call.frames).map (fun w => .ok (w.withRequestId requestId).bytes) ↔
      ∀ call ∈ calls, call.frames.length ≤ 1 := by
  rw [List.map_flatMap, List.map_flatMap, flatMap_eq_flatMap_iff]
  · exact forall₂_congr fun call _ => useChunk_queuedFor_iff requestId call.frames
  · intro call
    rw [List.length_map, List.length_map, length_queuedFor]

/-- On an open stream with nothing queued the chunks are sent as they are written exactly when no buffer
holds more than one. -/
theorem delivers_iff (stream : FacadeStream) (calls : List Call) (hOpen : stream.closed = false)
    (hEmpty : stream.outgoing = []) :
    stream.Delivers calls ↔ ∀ call ∈ calls, call.frames.length ≤ 1 := by
  obtain ⟨after, hRun⟩ := run_drained hOpen hEmpty calls
  rw [← useChunk_flatMap_iff stream.requestId]
  constructor
  · rintro ⟨after', handed, hRun', hSent⟩
    obtain ⟨-, rfl⟩ := Prod.mk.inj (Except.ok.inj (hRun.symm.trans hRun'))
    exact hSent
  · exact fun hSent => ⟨after, _, hRun, hSent⟩

/-- A heartbeat on a stream whose request id is 4. -/
theorem heartbeat_data : ([] : List UInt8) = [] := rfl

def heartbeat : WireChunk := ⟨.signal ⟨4, 2⟩, [], heartbeat_data⟩

/-- Two heartbeats written one after the other are sent. -/
theorem delivers_iff_heartbeats : FacadeStream.Delivers { requestId := 4 } [.write [heartbeat] false, .write [heartbeat] false] :=
  (delivers_iff { requestId := 4 } [.write [heartbeat] false, .write [heartbeat] false] rfl rfl).mpr (by decide)

/-- Two heartbeats in one buffer: the first is sent with the second as its data, and the second once more. -/
theorem not_delivers_two : ¬∀ (stream : FacadeStream) (calls : List Call), stream.closed = false →
    stream.outgoing = [] → stream.Delivers calls := by
  intro hDelivers
  obtain ⟨after, handed, hRun, hSent⟩ := hDelivers { requestId := 4 } [.write [heartbeat, heartbeat] false] rfl rfl
  obtain ⟨last, hDrained⟩ := @run_drained { requestId := 4 } rfl rfl [.write [heartbeat, heartbeat] false]
  obtain ⟨-, rfl⟩ := Prod.mk.inj (Except.ok.inj (hDrained.symm.trans hRun))
  exact absurd ((useChunk_flatMap_iff 4 [.write [heartbeat, heartbeat] false]).mp hSent) (by decide)

end FacadeStream
end Wwatp
