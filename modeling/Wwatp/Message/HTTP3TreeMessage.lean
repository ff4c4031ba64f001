import Wwatp.Message.Encode

/-! The encoders of `HTTP3TreeMessage`: each sets the signal of its message and
calls the helpers for the arguments. -/
namespace Wwatp

open Cxx

/-- A call of one helper encoder. -/
inductive HelperCall
  | label (s : Str)
  | longString (s : Str)
  | maybeTreeNode (mnode : Option TreeNode)
  | sequentialNotification (n : SequentialNotification)
  | vectorSequentialNotification (notifications : List SequentialNotification)
  | newNodeVersion (v : NewNodeVersion)
  | subTransaction (sub : SubTransaction)
  | transaction (t : Transaction)
  | vectorTreeNode (nodes : List TreeNode)

def HelperCall.encode (requestId : UInt16) (signal : UInt8) : HelperCall → Outcome (List SharedSpan)
  | label s => encodeLabel requestId signal s
  | longString s => .ok (encodeLongString requestId signal s)
  | maybeTreeNode mnode => encodeMaybeTreeNode requestId signal mnode
  | sequentialNotification n => encodeSequentialNotification requestId signal n
  | vectorSequentialNotification notifications =>
      encodeVectorSequentialNotification requestId signal notifications
  | newNodeVersion v => encodeNewNodeVersion requestId signal v
  | subTransaction sub => encodeSubTransaction requestId signal sub
  | transaction t => encodeTransaction requestId signal t
  | vectorTreeNode nodes => encodeVectorTreeNode requestId signal nodes

/-- `std::to_string` of a `bool`. -/
def boolText (b : Bool) : Str := str (if b then "1" else "0")

/-- A call of one `encode_…` method of `HTTP3TreeMessage`. -/
inductive MessageCall
  | getNodeRequest (labelRule : Str)
  | getNodeResponse (node : Option TreeNode)
  | upsertNodeRequest (nodes : List TreeNode)
  | upsertNodeResponse (success : Bool)
  | deleteNodeRequest (labelRule : Str)
  | deleteNodeResponse (success : Bool)
  | getPageTreeRequest (pageNodeLabelRule : Str)
  | getPageTreeResponse (nodes : List TreeNode)
  | getQueryNodesRequest (labelRule : Str)
  | getQueryNodesResponse (nodes : List TreeNode)
  | openTransactionLayerRequest (node : TreeNode)
  | openTransactionLayerResponse (success : Bool)
  | closeTransactionLayersRequest
  | closeTransactionLayersResponse (success : Bool)
  | applyTransactionRequest (transaction : Transaction)
  | applyTransactionResponse (success : Bool)
  | getFullTreeRequest
  | getFullTreeResponse (nodes : List TreeNode)
  | registerNodeListenerRequest (listenerName labelRule : Str) (childNotify : Bool)
  | registerNodeListenerResponse (success : Bool)
  | deregisterNodeListenerRequest (listenerName labelRule : Str)
  | deregisterNodeListenerResponse (success : Bool)
  | notifyListenersRequest (labelRule : Str) (node : Option TreeNode)
  | notifyListenersResponse (success : Bool)
  | processNotificationRequest
  | processNotificationResponse
  | getJournalRequest (lastNotification : SequentialNotification)
  | getJournalResponse (notifications : List SequentialNotification)

namespace MessageCall

/-- The `SIGNAL_WWATP_…` constant of the method. -/
def signal : MessageCall → UInt8
  | getNodeRequest _ => 0x07
  | getNodeResponse _ => 0x08
  | upsertNodeRequest _ => 0x09
  | upsertNodeResponse _ => 0x0A
  | deleteNodeRequest _ => 0x0B
  | deleteNodeResponse _ => 0x0C
  | getPageTreeRequest _ => 0x0D
  | getPageTreeResponse _ => 0x0E
  | getQueryNodesRequest _ => 0x0F
  | getQueryNodesResponse _ => 0x10
  | openTransactionLayerRequest _ => 0x11
  | openTransactionLayerResponse _ => 0x12
  | closeTransactionLayersRequest => 0x13
  | closeTransactionLayersResponse _ => 0x14
  | applyTransactionRequest _ => 0x15
  | applyTransactionResponse _ => 0x16
  | getFullTreeRequest => 0x17
  | getFullTreeResponse _ => 0x18
  | registerNodeListenerRequest _ _ _ => 0x19
  | registerNodeListenerResponse _ => 0x1A
  | deregisterNodeListenerRequest _ _ => 0x1B
  | deregisterNodeListenerResponse _ => 0x1C
  | notifyListenersRequest _ _ => 0x1D
  | notifyListenersResponse _ => 0x1E
  | processNotificationRequest => 0x1F
  | processNotificationResponse => 0x20
  | getJournalRequest _ => 0x21
  | getJournalResponse _ => 0x22

/-- The helpers the method calls, in order. -/
def helpers : MessageCall → List HelperCall
  | getNodeRequest labelRule => [.label labelRule]
  | getNodeResponse node => [.maybeTreeNode node]
  | upsertNodeRequest nodes => [.vectorTreeNode nodes]
  | upsertNodeResponse success => [.label (boolText success)]
  | deleteNodeRequest labelRule => [.label labelRule]
  | deleteNodeResponse success => [.label (boolText success)]
  | getPageTreeRequest pageNodeLabelRule => [.label pageNodeLabelRule]
  | getPageTreeResponse nodes => [.vectorTreeNode nodes]
  | getQueryNodesRequest labelRule => [.label labelRule]
  | getQueryNodesResponse nodes => [.vectorTreeNode nodes]
  | openTransactionLayerRequest node => [.maybeTreeNode (some node)]
  | openTransactionLayerResponse success => [.label (boolText success)]
  | closeTransactionLayersRequest => [.label (str "")]
  | closeTransactionLayersResponse success => [.label (boolText success)]
  | applyTransactionRequest transaction => [.transaction transaction]
  | applyTransactionResponse success => [.label (boolText success)]
  | getFullTreeRequest => [.label (str "")]
  | getFullTreeResponse nodes => [.vectorTreeNode nodes]
  | registerNodeListenerRequest listenerName labelRule childNotify =>
      [.label (listenerName ++ str " " ++ labelRule ++ str " " ++ boolText childNotify)]
  | registerNodeListenerResponse success => [.label (boolText success)]
  | deregisterNodeListenerRequest listenerName labelRule =>
      [.label (listenerName ++ str " " ++ labelRule)]
  | deregisterNodeListenerResponse success => [.label (boolText success)]
  | notifyListenersRequest labelRule node => [.label labelRule, .maybeTreeNode node]
  | notifyListenersResponse success => [.label (boolText success)]
  | processNotificationRequest => [.label (str "")]
  | processNotificationResponse => [.label (str "")]
  | getJournalRequest lastNotification =>
      [.sequentialNotification ⟨lastNotification.number, [], none⟩]
  | getJournalResponse notifications => [.vectorSequentialNotification notifications]

/-- The chunks the method queues. -/
def encode (requestId : UInt16) (call : MessageCall) : Outcome (List SharedSpan) :=
  encodeEach (HelperCall.encode requestId call.signal) call.helpers

end MessageCall
end Wwatp
