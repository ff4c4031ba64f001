import Wwatp.Cxx.KeyedQueues
import Wwatp.Transport.AppendData

/-! The tables that `QuicConnector` and `QuicListener` keep for their streams: the chunks
that wait to be sent, and the request that each stream belongs to. Worker threads append
chunks; the thread of the connection plans what to send next and takes it. -/
namespace Wwatp

open Cxx

/-- `StreamIdentifier`: a stream of a connection. -/
structure StreamIdentifier where
  cid : Str
  logicalId : UInt16
  deriving DecidableEq

namespace StreamIdentifier

/-- `operator<`: by connection, then by logical id. -/
instance : Ord StreamIdentifier where
  compare := compareLex (compareOn cid) (compareOn logicalId)

instance : Std.TransOrd StreamIdentifier :=
  inferInstanceAs (Std.TransCmp (compareLex (compareOn cid) (compareOn logicalId)))

instance : Std.LawfulEqOrd StreamIdentifier where
  eq_of_compare := by
    rintro ⟨cid, id⟩ ⟨cid', id'⟩ h
    obtain ⟨hCid, hId⟩ := Ordering.then_eq_eq.mp h
    obtain rfl := Std.LawfulEqCmp.eq_of_compare (show compare cid cid' = .eq from hCid)
    obtain rfl := Std.LawfulEqCmp.eq_of_compare (show compare id id' = .eq from hId)
    rfl

end StreamIdentifier

/-- `get_signal<signal_chunk_header>().signal == SIGNAL_CLOSE_STREAM`. -/
def SharedSpan.isCloseStream (s : SharedSpan) : Outcome Bool :=
  match s.chunks with
  | [] => throw (.invalidArgument (str "No signal in the shared_span"))
  | c :: _ => .ok ((SignalChunkHeader.ofBytes c.data).signal = 0x01)

/-- The chunk that closes a stream. -/
def closeStream (stream : StreamIdentifier) : SharedSpan :=
  .ofSignal (.signal ⟨stream.logicalId, 0x01⟩) []

structure Request where
  scheme : Str
  authority : Str
  path : Str
  method : Str
  urgency : Int
  inc : Int
  deriving DecidableEq

/-- `path.find("wwatp/") != npos`. -/
def Request.isWWATP (req : Request) : Bool := decide (str "wwatp/" <:+: req.path)

/-- The tables of one endpoint. `incomingChunks` has an empty list where there is no
entry. -/
structure StreamTables where
  outgoingChunks : KeyedQueues StreamIdentifier SharedSpan := ∅
  incomingChunks : StreamIdentifier → List SharedSpan := fun _ => []
  returnPaths : StreamIdentifier → Option Request := fun _ => none

/-- What becomes of the chunks that a callback has returned. -/
inductive Processed
  | dropped
  | queued
  | closing
  deriving DecidableEq, Repr

/-- A single chunk that is a signal is looked at, not queued. -/
def isSignalAlone : List SharedSpan → Option SharedSpan
  | [chunk] => if chunk.signalType = 1 then some chunk else none
  | _ => none

/-- `QuicConnector::processRequestStream`, the section after the callback. -/
def QuicConnector.sortRequested (processed : List SharedSpan) : Outcome Processed :=
  if processed = [] then .ok .dropped
  else match isSignalAlone processed with
    | none => .ok .queued
    | some chunk => do
      return if ← chunk.isCloseStream then .closing else .dropped

/-- `QuicListener::processResponseStream`, the section after the callback: a stream with
chunks to send is not closed yet. -/
def QuicListener.sortResponse (t : StreamTables) (stream : StreamIdentifier)
    (processed : List SharedSpan) : Outcome Processed :=
  if processed = [] then .ok .dropped
  else match isSignalAlone processed with
    | none => .ok .queued
    | some chunk => do
      return if (← chunk.isCloseStream) && t.outgoingChunks[stream]?.isNone then .closing else .dropped

/-- The same section of `QuicConnector::processResponseStream` and
`QuicListener::processRequestStream`, which close no streams. -/
def sortProcessed (processed : List SharedSpan) : Outcome Processed :=
  .ok (if processed = [] then .dropped else .queued)

namespace StreamTables

/-- The chunks are put behind those that wait for the stream. -/
def appendOutgoing (t : StreamTables) (stream : StreamIdentifier) (processed : List SharedSpan) :
    StreamTables :=
  { t with outgoingChunks := t.outgoingChunks.append stream processed }

/-- The cleanup of a closed stream. Its return path stays. -/
def cleanup (t : StreamTables) (stream : StreamIdentifier) : StreamTables where
  outgoingChunks := t.outgoingChunks.erase stream
  incomingChunks := Function.update t.incomingChunks stream []
  returnPaths := t.returnPaths

/-- `returnPaths.insert`, which keeps an entry that is there. -/
def insertReturnPath (t : StreamTables) (stream : StreamIdentifier) (req : Request) : StreamTables :=
  { t with returnPaths := Function.update t.returnPaths stream ((t.returnPaths stream).or (some req)) }

/-- What `popNOutgoingChunks` moves, kept apart by stream. -/
def popPieces (t : StreamTables) (streams : List StreamIdentifier) (n : ℕ) :
    StreamTables × List (StreamIdentifier × List SharedSpan) :=
  let (left, pieces) := t.outgoingChunks.takeEach streams n
  ({ t with outgoingChunks := left }, pieces)

/-- `popNOutgoingChunks` of both classes. -/
def popNOutgoingChunks (t : StreamTables) (streams : List StreamIdentifier) (n : ℕ) :
    StreamTables × List SharedSpan :=
  let (t, pieces) := t.popPieces streams n
  (t, pieces.flatMap Prod.snd)

/-- `planForNOutgoingChunks`, first section: the streams of the connection with an entry. -/
def potentialIdentifiers (t : StreamTables) (dcid : Str) : List StreamIdentifier :=
  t.outgoingChunks.keys.filter (·.cid = dcid)

/-- The second section: those of them that belong to the request. -/
def matchingIdentifiers (t : StreamTables) (req : Request) (potential : List StreamIdentifier) :
    List StreamIdentifier :=
  potential.filter fun stream => decide (t.returnPaths stream = some req)

end StreamTables

/-- The bytes of a chunk on the wire, `size() + get_signal_size()`. -/
def SharedSpan.sentSize (s : SharedSpan) : Outcome ℕ := do
  return s.size + (← s.getSignalSize)

/-- The bytes of several chunks. -/
def sentSizes : List SharedSpan → Outcome ℕ
  | [] => .ok 0
  | chunk :: rest => do
    let size ← chunk.sentSize
    return size + (← sentSizes rest)

/-- A call of `planForNOutgoingChunks` between its sections. -/
inductive Plan
  | collected (dcid : Str) (n : ℕ) (req : Request) (potential : List StreamIdentifier)
  /-- in the loop: the identifiers not used yet and those used, what is left of `n`, and
  the size so far -/
  | choosing (dcid : Str) (n : ℕ) (req : Request) (unused used : List StreamIdentifier) (left size : ℕ)
  /-- the size of a chunk threw -/
  | threw

namespace Plan

/-- The second section. -/
def filter (t : StreamTables) : Plan → Option Plan
  | collected dcid n req potential =>
    some (.choosing dcid n req (t.matchingIdentifiers req potential) [] n 0)
  | _ => none

/-- One round of the loop, with the number that `rand()` returned. -/
def choose (t : StreamTables) (draw : ℕ) : Plan → Option Plan
  | choosing dcid n req unused used left size =>
    if 0 < left then
      match unused[draw % unused.length]? with
      | none => none
      | some stream =>
        let queue := t.outgoingChunks.queued stream
        match sentSizes (queue.take (min left queue.length)) with
        | .error _ => some .threw
        | .ok more => some (.choosing dcid n req (unused.eraseIdx (draw % unused.length))
            (used ++ [stream]) (left - min left queue.length) (size + more))
    else none
  | _ => none

/-- The identifiers chosen so far. -/
def used : Plan → List StreamIdentifier
  | choosing _ _ _ _ used _ _ => used
  | _ => []

/-- What the call returns, with the number of chunks it was made for. -/
def result : Plan → Option (ℕ × ℕ × List StreamIdentifier)
  | choosing _ n _ unused used left size =>
    if left = 0 ∨ unused = [] then some (n, size, used) else none
  | _ => none

/-- The plan is for the connection and the request. -/
def IsFor (dcid : Str) (req : Request) : Plan → Prop
  | collected dcid' _ req' _ => dcid' = dcid ∧ req' = req
  | choosing dcid' _ req' _ _ _ _ => dcid' = dcid ∧ req' = req
  | threw => False

end Plan

end Wwatp
