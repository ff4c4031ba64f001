import Wwatp.Tree.Text
import Wwatp.Transport.AppendData

/-! The encoders of `http3_tree_message_helpers.cpp`: labels take one chunk, long
strings a length and as many chunks as they need, nodes a long string and the
chunks of their property data. -/
namespace Wwatp

open Cxx

/-- `shared_span<>::chunk_size - sizeof(payload_chunk_header)`. -/
def maxPayload : ℕ := 1194

/-- A span made from a payload header with the length of the payload, and the payload. -/
def payloadSpan (requestId : UInt16) (signal : UInt8) (payload : List UInt8) : SharedSpan :=
  .ofSignal (.payload ⟨requestId, signal, .ofNat payload.length⟩) payload

section

variable (requestId : UInt16) (signal : UInt8)

@[simp] theorem bytes_payloadSpan (payload : List UInt8) :
    (payloadSpan requestId signal payload).bytes = payload :=
  SharedSpan.bytes_ofSignal _ payload

@[simp] theorem size_payloadSpan (payload : List UInt8) :
    (payloadSpan requestId signal payload).size = payload.length := by
  rw [SharedSpan.size_eq_bytes_length, bytes_payloadSpan]

/-- The underlying chunk of a payload that fits behind the header. -/
def payloadChunk (payload : List UInt8) : Chunk :=
  .ofHeader (.payload ⟨requestId, signal, .ofNat payload.length⟩) payload

theorem payloadSpan_of_le {payload : List UInt8} (h : payload.length ≤ maxPayload) :
    payloadSpan requestId signal payload = ⟨[payloadChunk requestId signal payload], 2⟩ :=
  SharedSpan.ofSignal_of_le h

theorem body_payloadChunk {payload : List UInt8} (h : payload.length ≤ maxPayload) :
    (payloadChunk requestId signal payload).body = payload := by
  rw [payloadChunk, Chunk.body_ofHeader]
  exact List.take_of_length_le h

def encodeLabel (label : Str) : Outcome (List SharedSpan) :=
  if label.length > maxPayload then throw (.invalidArgument (str "String size exceeds chunk size"))
  else .ok [payloadSpan requestId signal label]

/-- The first chunk holds the length as a `size_t` and what fits behind it. -/
def encodeLongString (s : Str) : List SharedSpan :=
  payloadSpan requestId signal (leBytes 8 s.length ++ s.take (maxPayload - 8)) ::
    ((s.drop (maxPayload - 8)).blocks maxPayload).map (payloadSpan requestId signal)

/-- `std::setw(8 * 2) << std::setfill('0') << std::hex`. -/
def chunkCountText (count : ℕ) : Str := padLeft 16 (chr '0') (toBase 16 count)

/-- The long string that precedes the property data of a node. -/
def maybeTreeNodeText : Option TreeNode → Outcome Str
  | none => .ok (str "Nothing")
  | some node => do
    let text ← node.text
    return str "Just " ++ text ++ str "\n" ++ chunkCountText node.propertyData.chunks.length

/-- The property data of a node, each chunk re-wrapped under the message's header. -/
def propertyChunks (mnode : Option TreeNode) : List SharedSpan :=
  match mnode with
  | none => []
  | some node => node.propertyData.flattenWithSignal ⟨requestId, signal, 0⟩

def encodeMaybeTreeNode (mnode : Option TreeNode) : Outcome (List SharedSpan) := do
  let text ← maybeTreeNodeText mnode
  return encodeLongString requestId signal text ++ propertyChunks requestId signal mnode

/-- The encodings of the elements of a vector, one after another. -/
def encodeEach {α : Type} (encode : α → Outcome (List SharedSpan)) :
    List α → Outcome (List SharedSpan)
  | [] => .ok []
  | a :: rest => do return (← encode a) ++ (← encodeEach encode rest)

/-- The text of a sequence number and the label it is for. -/
def notificationText (n : SequentialNotification) : Str :=
  toDecimal n.number.toNat ++ str " " ++ n.labelRule

def encodeSequentialNotification (n : SequentialNotification) : Outcome (List SharedSpan) := do
  let maybeTree ← encodeMaybeTreeNode requestId signal n.node
  return encodeLongString requestId signal (notificationText n) ++ maybeTree

def encodeVectorSequentialNotification (notifications : List SequentialNotification) :
    Outcome (List SharedSpan) := do
  let count ← encodeLabel requestId signal (toDecimal notifications.length)
  return count ++ (← encodeEach (encodeSequentialNotification requestId signal) notifications)

/-- The text of an expected version and the label it is for. -/
def newNodeVersionText (v : NewNodeVersion) : Str :=
  maybeText (fun version => toDecimal version.toNat) v.priorVersion ++ str " " ++ v.labelRule

def encodeNewNodeVersion (v : NewNodeVersion) : Outcome (List SharedSpan) := do
  let maybeTree ← encodeMaybeTreeNode requestId signal v.node
  return encodeLongString requestId signal (newNodeVersionText v) ++ maybeTree

def encodeSubTransaction (sub : SubTransaction) : Outcome (List SharedSpan) := do
  let count ← encodeLabel requestId signal (toDecimal sub.descendants.length)
  let parent ← encodeNewNodeVersion requestId signal sub.parent
  return count ++ parent ++ (← encodeEach (encodeNewNodeVersion requestId signal) sub.descendants)

def encodeTransaction (transaction : Transaction) : Outcome (List SharedSpan) := do
  let count ← encodeLabel requestId signal (toDecimal transaction.length)
  return count ++ (← encodeEach (encodeSubTransaction requestId signal) transaction)

def encodeVectorTreeNode (nodes : List TreeNode) : Outcome (List SharedSpan) := do
  let count ← encodeLabel requestId signal (toDecimal nodes.length)
  return count ++ (← encodeEach (fun node => encodeMaybeTreeNode requestId signal (some node)) nodes)

end

end Wwatp
