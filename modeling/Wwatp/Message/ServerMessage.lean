import Wwatp.Message.HTTP3TreeMessage
import Wwatp.Message.Decode

/-! `HTTP3TreeMessage` on the server: request chunks are pushed until the request is
complete, it is decoded, and the chunks of the response are popped. -/
namespace Wwatp

open Cxx Cxx.Reader

namespace SharedSpan

/-- `get_signal_signal`. -/
def getSignalSignal (s : SharedSpan) : Outcome UInt8 :=
  match s.chunks with
  | [] => throw (.invalidArgument (str "No signal in the shared_span"))
  | c :: _ =>
    if s.signalType = 0 then
      throw (.invalidArgument (str "Global signal does not have a signal value"))
    else if s.signalType = 1 then .ok (SignalChunkHeader.ofBytes c.data).signal
    else if s.signalType = 2 then .ok (PayloadChunkHeader.ofBytes c.data).signal
    else throw (.invalidArgument (str "Unknown signal type"))

/-- `get_request_id`. -/
def getRequestId (s : SharedSpan) : Outcome UInt16 :=
  match s.chunks with
  | [] => throw (.invalidArgument (str "No request id in empty shared_span"))
  | c :: _ =>
    if s.signalType = 0 then
      throw (.invalidArgument (str "Empty chunk header does not have request id."))
    else if s.signalType = 1 then .ok (SignalChunkHeader.ofBytes c.data).requestId
    else if s.signalType = 2 then .ok (PayloadChunkHeader.ofBytes c.data).requestId
    else throw (.invalidArgument (str "Could not decode request id, signal_type unknown."))

section

variable (header : PayloadChunkHeader) (data : List UInt8)

theorem ofBytes_ofHeader :
    PayloadChunkHeader.ofBytes (Chunk.ofHeader (.payload header) data).data = header :=
  PayloadChunkHeader.ofBytes_toBytes header _

theorem getPayloadSignal_ofSignal :
    (ofSignal (.payload header) data).getPayloadSignal = .ok header :=
  congrArg Except.ok (ofBytes_ofHeader header data)

theorem getSignalSignal_ofSignal :
    (ofSignal (.payload header) data).getSignalSignal = .ok header.signal :=
  congrArg (fun header => Except.ok (PayloadChunkHeader.signal header)) (ofBytes_ofHeader header data)

theorem getRequestId_ofSignal :
    (ofSignal (.payload header) data).getRequestId = .ok header.requestId :=
  congrArg (fun header => Except.ok (PayloadChunkHeader.requestId header)) (ofBytes_ofHeader header data)

end

end SharedSpan

structure HTTP3TreeMessage where
  requestId : UInt16 := 0
  signal : UInt8 := 0
  isInitialized : Bool := false
  requestChunks : List SharedSpan := []
  requestComplete : Bool := false
  responseChunks : List SharedSpan := []
  responseComplete : Bool := false
  processingFinished : Bool := false
  deriving DecidableEq

/-- The `can_decode` function `pushRequestChunk` asks for a chunk of the signal. -/
def canDecodeRequest (signal : UInt8) (requestChunks : List SharedSpan) : Outcome (Option ℕ) :=
  match signal with
  | 0x07 => canDecodeLabel 0 requestChunks
  | 0x09 => canDecodeVectorTreeNode 0 requestChunks
  | 0x0B => canDecodeLabel 0 requestChunks
  | 0x0D => canDecodeLabel 0 requestChunks
  | 0x0F => canDecodeLabel 0 requestChunks
  | 0x11 => canDecodeMaybeTreeNode 0 requestChunks
  | 0x13 => canDecodeLabel 0 requestChunks
  | 0x15 => canDecodeTransaction 0 requestChunks
  | 0x17 => canDecodeLabel 0 requestChunks
  | 0x19 => canDecodeLabel 0 requestChunks
  | 0x1B => canDecodeLabel 0 requestChunks
  | 0x1D => do
    let label ← canDecodeLabel 0 requestChunks
    canDecodeMaybeTreeNode (label.getD 0) requestChunks
  | 0x1F => canDecodeLabel 0 requestChunks
  | 0x21 => canDecodeSequentialNotification 0 requestChunks
  | _ => throw (.invalidArgument (str "Unknown signal"))

namespace HTTP3TreeMessage

/-- The first chunk of a request names it. -/
def adoptRequestId (m : HTTP3TreeMessage) (chunk : SharedSpan) : Outcome HTTP3TreeMessage :=
  if m.requestChunks.length = 1 then do
    return { m with requestId := ← chunk.getRequestId, isInitialized := true }
  else .ok m

def pushRequestChunk (m : HTTP3TreeMessage) (chunk : SharedSpan) : Outcome HTTP3TreeMessage := do
  let signal ← chunk.getSignalSignal
  let m ← adoptRequestId { m with requestChunks := m.requestChunks ++ [chunk] } chunk
  let canDecode ← canDecodeRequest signal m.requestChunks
  return if canDecode.isSome then { m with requestComplete := true } else m

/-- Several chunks pushed in turn. -/
def pushRequestChunks (m : HTTP3TreeMessage) : List SharedSpan → Outcome HTTP3TreeMessage
  | [] => .ok m
  | chunk :: rest => do
    let m ← m.pushRequestChunk chunk
    m.pushRequestChunks rest

def popResponseChunk (m : HTTP3TreeMessage) : Option SharedSpan × HTTP3TreeMessage :=
  match m.responseChunks with
  | [] => (none, if m.responseComplete then { m with processingFinished := true } else m)
  | chunk :: rest => (some chunk, { m with responseChunks := rest })

/-- The check in front of most decoders of a request. -/
def checkRequestComplete (m : HTTP3TreeMessage) : Outcome Unit :=
  if m.requestComplete then .ok ()
  else throw (.invalidArgument (str "HTTP3TreeMessage has not been fully recieved"))

/-- A request that is a label. -/
def decodeLabelRequest (m : HTTP3TreeMessage) : Outcome Str := do
  m.checkRequestComplete
  let (_, label) ← decodeLabel m.requestChunks
  return label

def decodeGetNodeRequest := decodeLabelRequest

def decodeDeleteNodeRequest := decodeLabelRequest

def decodeGetPageTreeRequest := decodeLabelRequest

def decodeGetQueryNodesRequest := decodeLabelRequest

def decodeUpsertNodeRequest (m : HTTP3TreeMessage) : Outcome (List TreeNode) := do
  m.checkRequestComplete
  let (_, nodes) ← decodeVectorTreeNode m.requestChunks
  return nodes

def decodeOpenTransactionLayerRequest (m : HTTP3TreeMessage) : Outcome TreeNode := do
  m.checkRequestComplete
  match ← decodeMaybeTreeNode m.requestChunks with
  | (_, none) => throw (.invalidArgument (str "TreeNode is nothing"))
  | (_, some node) => return node

def decodeApplyTransactionRequest (m : HTTP3TreeMessage) : Outcome Transaction := do
  m.checkRequestComplete
  let (_, transaction) ← decodeTransaction m.requestChunks
  return transaction

end HTTP3TreeMessage

/-- `isspace(is.peek())`. -/
def peekIsSpace : Reader Bool := do
  match ← peek with
  | none => return false
  | some c => return isSpace c

/-- `is >> flag` for a `bool`; `none` leaves the variable as it was. -/
def readBool : Reader (Option Bool) := fun s =>
  match s.sentry with
  | (false, s) => .ok (none, s)
  | (true, s) =>
    let (negative, digits, rest) := scanNumber 10 s.rest
    let s := s.readTo rest
    if digits = [] then .ok (some false, s.setFail)
    else if valueOf 10 digits = 0 then .ok (some false, s)
    else if valueOf 10 digits = 1 ∧ ¬negative then .ok (some true, s)
    else .ok (some true, s.setFail)

/-- The words of a listener request; a space in front of a word says that it is empty. -/
def readListener : Reader (Str × Str × Option Bool) := do
  let listenerName ← if ← peekIsSpace then pure [] else word []
  let _ ← Reader.get
  let labelRule ← if ← peekIsSpace then pure [] else word []
  let _ ← Reader.get
  let childNotify ← readBool
  return (listenerName, labelRule, childNotify)

namespace HTTP3TreeMessage

def decodeRegisterNodeListenerRequest (m : HTTP3TreeMessage) :
    Outcome (Str × Str × Option Bool) := do
  m.checkRequestComplete
  let (_, text) ← decodeLabel m.requestChunks
  readFrom readListener text

def decodeDeregisterNodeListenerRequest (m : HTTP3TreeMessage) : Outcome (Str × Str) := do
  m.checkRequestComplete
  let (_, text) ← decodeLabel m.requestChunks
  readFrom (do
    let listenerName ← if ← peekIsSpace then pure [] else word []
    let _ ← Reader.get
    let labelRule ← word []
    return (listenerName, labelRule)) text

def decodeNotifyListenersRequest (m : HTTP3TreeMessage) : Outcome (Str × Option TreeNode) := do
  m.checkRequestComplete
  let (used, text) ← decodeLabel m.requestChunks
  let labelRule ← readFrom (word []) text
  let (_, node) ← consuming (str "Cannot decode TreeNode") decodeMaybeTreeNode
    (m.requestChunks.drop used)
  return (labelRule, node)

def decodeGetJournalRequest (m : HTTP3TreeMessage) : Outcome SequentialNotification := do
  m.checkRequestComplete
  let (_, notification) ← consuming (str "Cannot decode SequentialNotification")
    decodeSequentialNotification m.requestChunks
  return notification

end HTTP3TreeMessage

end Wwatp
