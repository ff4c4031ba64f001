import Wwatp.Message.ServerMessage
import Wwatp.Message.WireLegal

/-! `HTTP3TreeMessage` on the client: the chunks of the request are popped to be sent, response
chunks are pushed until the response is complete, and it is decoded. -/
namespace Wwatp

open Cxx Cxx.Reader

/-- The bytes of `request_id` in the header of a signal or payload chunk. -/
def Chunk.setRequestId (c : Chunk) (requestId : UInt16) : Chunk where
  data := c.data.take 2 ++ leBytes 2 requestId.toNat ++ c.data.drop 4
  first := c.first
  first_pos := c.first_pos
  first_le := by
    have hLe := c.first_le
    simp only [List.length_append, List.length_take, leBytes_length, List.length_drop]
    omega
  fits := by
    have hFits := c.fits
    simp only [List.length_append, List.length_take, leBytes_length, List.length_drop, chunkSize] at hFits ⊢
    omega

/-- `set_request_id`. -/
def SharedSpan.setRequestId (s : SharedSpan) (requestId : UInt16) : Outcome SharedSpan :=
  match s.chunks with
  | [] => throw (.invalidArgument (str "No request id in empty shared_span"))
  | c :: rest =>
    if s.signalType = 0 then
      throw (.invalidArgument (str "Empty chunk header does not have request id."))
    else if s.signalType = 1 then .ok ⟨c.setRequestId requestId :: rest, s.signalType⟩
    else if s.signalType = 2 then .ok ⟨c.setRequestId requestId :: rest, s.signalType⟩
    else throw (.invalidArgument (str "Could not decode request id, signal_type unknown."))

/-- The `can_decode` function `pushResponseChunk` asks for a chunk of the signal. -/
def canDecodeResponse (signal : UInt8) (responseChunks : List SharedSpan) : Outcome (Option ℕ) :=
  match signal with
  | 0x08 => canDecodeMaybeTreeNode 0 responseChunks
  | 0x0A => canDecodeLabel 0 responseChunks
  | 0x0C => canDecodeLabel 0 responseChunks
  | 0x0E => canDecodeVectorTreeNode 0 responseChunks
  | 0x10 => canDecodeVectorTreeNode 0 responseChunks
  | 0x12 => canDecodeLabel 0 responseChunks
  | 0x14 => canDecodeLabel 0 responseChunks
  | 0x16 => canDecodeLabel 0 responseChunks
  | 0x18 => canDecodeVectorTreeNode 0 responseChunks
  | 0x1A => canDecodeLabel 0 responseChunks
  | 0x1C => canDecodeLabel 0 responseChunks
  | 0x1E => canDecodeLabel 0 responseChunks
  | 0x20 => canDecodeLabel 0 responseChunks
  | 0x22 => canDecodeVectorSequentialNotification 0 responseChunks
  | _ => throw (.invalidArgument (str "Unknown signal"))

namespace HTTP3TreeMessage

/-- The loop of `setRequestId` over the chunks of the request. -/
def setRequestIds (requestId : UInt16) : List SharedSpan → Outcome (List SharedSpan)
  | [] => .ok []
  | chunk :: rest => do
    let chunk ← if chunk.signalType = 2 then chunk.setRequestId requestId else pure chunk
    return chunk :: (← setRequestIds requestId rest)

def setRequestId (m : HTTP3TreeMessage) (requestId : UInt16) : Outcome HTTP3TreeMessage := do
  return { m with
    requestId := requestId
    requestChunks := ← setRequestIds requestId m.requestChunks
    requestComplete := true }

/-- `setup_staticNodeDataRequest`: a chunk that is only there to open a stream. -/
def staticNodeDataRequest : HTTP3TreeMessage where
  signal := 0x00
  isInitialized := true
  requestChunks := [.ofSignal (.payload ⟨0, 0xFF, 0⟩) []]

/-- `popRequestChunk` until there is no chunk left. -/
def popRequestChunks (m : HTTP3TreeMessage) : List SharedSpan × HTTP3TreeMessage :=
  (m.requestChunks, { m with requestChunks := [] })

def pushResponseChunk (m : HTTP3TreeMessage) (chunk : SharedSpan) : Outcome HTTP3TreeMessage :=
  if chunk.signalType = 0 then .ok { m with responseChunks := m.responseChunks ++ [chunk] }
  else do
    let signal ← chunk.getSignalSignal
    if chunk.signalType = 1 then
      return if signal = 0x01 then { m with responseComplete := true } else m
    let m := { m with responseChunks := m.responseChunks ++ [chunk] }
    let canDecode ← canDecodeResponse signal m.responseChunks
    -- the signal of the message becomes that of the response
    return if canDecode.isSome then { m with signal := signal, responseComplete := true } else m

/-- Several chunks pushed in turn. -/
def pushResponseChunks (m : HTTP3TreeMessage) : List SharedSpan → Outcome HTTP3TreeMessage
  | [] => .ok m
  | chunk :: rest => do
    let m ← m.pushResponseChunk chunk
    m.pushResponseChunks rest

/-- The check in front of every decoder of a response. -/
def checkResponseComplete (m : HTTP3TreeMessage) : Outcome Unit :=
  if m.responseComplete then .ok ()
  else throw (.invalidArgument (str "HTTP3TreeMessage response has not been fully recieved"))

/-- A response that is decoded as a whole finishes its message. -/
def decodeResponse {α : Type} (decode : List SharedSpan → Outcome (ℕ × α)) (m : HTTP3TreeMessage) :
    Outcome (α × HTTP3TreeMessage) := do
  m.checkResponseComplete
  let (_, value) ← decode m.responseChunks
  return (value, { m with processingFinished := true })

def decodeGetNodeResponse := decodeResponse decodeMaybeTreeNode

def decodeGetPageTreeResponse := decodeResponse decodeVectorTreeNode

def decodeGetQueryNodesResponse := decodeResponse decodeVectorTreeNode

def decodeGetFullTreeResponse := decodeResponse decodeVectorTreeNode

def decodeGetJournalResponse := decodeResponse decodeVectorSequentialNotification

/-- `iss >> success` on a label. -/
def decodeFlag (encoded : List SharedSpan) : Outcome (ℕ × Bool) := do
  let (used, label) ← decodeLabel encoded
  return (used, ← writtenValue (← readFrom readBool label))

def decodeUpsertNodeResponse := decodeResponse decodeFlag

def decodeDeleteNodeResponse := decodeResponse decodeFlag

def decodeOpenTransactionLayerResponse := decodeResponse decodeFlag

def decodeCloseTransactionLayersResponse := decodeResponse decodeFlag

def decodeApplyTransactionResponse := decodeResponse decodeFlag

def decodeRegisterNodeListenerResponse := decodeResponse decodeFlag

def decodeDeregisterNodeListenerResponse := decodeResponse decodeFlag

def decodeNotifyListenersResponse := decodeResponse decodeFlag

/-- A response without a value. -/
def decodeProcessNotificationResponse (m : HTTP3TreeMessage) : Outcome (Unit × HTTP3TreeMessage) := do
  m.checkResponseComplete
  return ((), { m with processingFinished := true })

end HTTP3TreeMessage
end Wwatp
