import Wwatp.Message.ClientMessage
import Wwatp.Message.Ends

/-! When a message is taken for complete: chunks are pushed one at a time, and after each of them
`can_decode` is asked for the end of the message. -/
namespace Wwatp

open Cxx Cxx.Reader

namespace HelperCall

/-- The decoder of what a helper encodes. -/
def decoder : HelperCall → Decoder
  | label _ => .label
  | longString _ => .longString
  | maybeTreeNode _ => .maybeTreeNode
  | sequentialNotification _ => .sequentialNotification
  | vectorSequentialNotification _ => .vectorSequentialNotification
  | newNodeVersion _ => .newNodeVersion
  | subTransaction _ => .subTransaction
  | transaction _ => .transaction
  | vectorTreeNode _ => .vectorTreeNode

/-- The texts in front of nodes. -/
def headers : HelperCall → List Str
  | label _ => []
  | longString _ => []
  | maybeTreeNode _ => []
  | sequentialNotification n => [notificationText n]
  | vectorSequentialNotification notifications => notifications.map notificationText
  | newNodeVersion v => [newNodeVersionText v]
  | subTransaction sub => sub.changes.map newNodeVersionText
  | transaction t => (t.flatMap SubTransaction.changes).map newNodeVersionText
  | vectorTreeNode _ => []

section Ends

variable {requestId : UInt16} {signal : UInt8} {call : HelperCall} {chunks : List SharedSpan}

/-- An encoding shows at least one chunk for each element. -/
theorem length_le_of_encodeEach {α : Type} {encode : α → Outcome (List SharedSpan)} {l : List α}
    (hPos : ∀ a ∈ l, ∀ spans, encode a = .ok spans → spans.length ≠ 0) (h : encodeEach encode l = .ok chunks) :
    l.length ≤ chunks.length := by
  induction l generalizing chunks with
  | nil => exact Nat.zero_le _
  | cons a l ih =>
      simp only [encodeEach, Outcome.bind_eq_ok, Outcome.pure_eq_ok, Except.ok.injEq] at h
      obtain ⟨first, hFirst, rest, hRest, rfl⟩ := h
      have hOne := hPos a List.mem_cons_self first hFirst
      have hMore := ih (fun b hb => hPos b (List.mem_cons_of_mem a hb)) hRest
      rw [List.length_cons, List.length_append]
      omega

/-- A part of an encoding is not longer than the whole. -/
theorem length_le_of_mem {α : Type} {encode : α → Outcome (List SharedSpan)} {l : List α}
    (h : encodeEach encode l = .ok chunks) {a : α} (ha : a ∈ l) :
    ∃ spans, encode a = .ok spans ∧ spans.length ≤ chunks.length := by
  induction l generalizing chunks with
  | nil => cases ha
  | cons b l ih =>
      simp only [encodeEach, Outcome.bind_eq_ok, Outcome.pure_eq_ok, Except.ok.injEq] at h
      obtain ⟨first, hFirst, rest, hRest, rfl⟩ := h
      rw [List.length_append]
      rcases List.mem_cons.mp ha with rfl | ha
      · exact ⟨first, hFirst, Nat.le_add_right _ _⟩
      · obtain ⟨spans, hSpans, hLe⟩ := ih hRest ha
        exact ⟨spans, hSpans, Nat.le_trans hLe (Nat.le_add_left _ _)⟩

theorem nodes_subTransaction (sub : SubTransaction) :
    (subTransaction sub).nodes = sub.changes.flatMap (·.node.toList) := by
  simp [nodes, SubTransaction.changes]

theorem nodes_transaction (t : Transaction) :
    (transaction t).nodes = t.flatMap fun sub => (subTransaction sub).nodes := rfl

/-- An encoded part has at least one chunk. -/
theorem encodeSequentialNotification_ne_nil {n : SequentialNotification}
    (h : encodeSequentialNotification requestId signal n = .ok chunks) : chunks.length ≠ 0 := by
  obtain ⟨nodeChunks, -, h⟩ := Outcome.bind_eq_ok.mp h
  obtain rfl := Except.ok.inj h
  rw [ne_eq, List.length_eq_zero_iff, List.append_eq_nil_iff]
  exact fun hNil => encodeLongString_ne_nil requestId signal _ hNil.1

/-- The elements of an encoded vector are not more than its chunks. -/
theorem length_le_of_vector {α : Type} {encode : α → Outcome (List SharedSpan)} {count : Str} {l : List α}
    (hPos : ∀ a spans, encode a = .ok spans → spans.length ≠ 0)
    (h : (do return (← encodeLabel requestId signal count) ++ (← encodeEach encode l)) = .ok chunks) :
    l.length ≤ chunks.length := by
  simp only [Outcome.bind_eq_ok, Outcome.pure_eq_ok, Except.ok.injEq] at h
  obtain ⟨first, -, rest, hRest, rfl⟩ := h
  have hLe := length_le_of_encodeEach (fun a _ spans => hPos a spans) hRest
  rw [List.length_append]
  omega

theorem length_descendants_le {sub : SubTransaction} (h : encodeSubTransaction requestId signal sub = .ok chunks) :
    sub.descendants.length ≤ chunks.length := by
  simp only [encodeSubTransaction, Outcome.bind_eq_ok, Outcome.pure_eq_ok, Except.ok.injEq] at h
  obtain ⟨first, -, parent, -, rest, hRest, rfl⟩ := h
  have hLe := length_le_of_encodeEach (fun _ _ _ => encodeNewNodeVersion_ne_nil requestId signal) hRest
  rw [List.length_append]
  omega

/-- Every vector of the call has a length that is a `size_t`. -/
def Countable : HelperCall → Prop
  | vectorSequentialNotification notifications => notifications.length < 2 ^ 64
  | subTransaction sub => sub.descendants.length < 2 ^ 64
  | transaction t => t.length < 2 ^ 64 ∧ ∀ sub ∈ t, sub.descendants.length < 2 ^ 64
  | vectorTreeNode nodes => nodes.length < 2 ^ 64
  | _ => True

theorem encodeSubTransaction_length_ne_zero {sub : SubTransaction}
    (h : encodeSubTransaction requestId signal sub = .ok chunks) : chunks.length ≠ 0 := by
  simp only [encodeSubTransaction, Outcome.bind_eq_ok, Outcome.pure_eq_ok, Except.ok.injEq] at h
  obtain ⟨first, -, parent, hParent, rest, -, rfl⟩ := h
  have hNe := encodeNewNodeVersion_ne_nil requestId signal hParent
  simp only [List.length_append]
  omega

/-- The elements of a vector take at least a chunk each, so there are not more of them. -/
theorem countable_of_encode (h : call.encode requestId signal = .ok chunks) (hSize : chunks.length < 2 ^ 64) :
    call.Countable := by
  cases call with
  | vectorSequentialNotification notifications =>
      exact Nat.lt_of_le_of_lt (length_le_of_vector (fun _ _ => encodeSequentialNotification_ne_nil) h) hSize
  | subTransaction sub => exact Nat.lt_of_le_of_lt (length_descendants_le h) hSize
  | transaction t =>
      refine ⟨Nat.lt_of_le_of_lt (length_le_of_vector (fun _ _ => encodeSubTransaction_length_ne_zero) h) hSize,
        fun sub hSub => ?_⟩
      simp only [HelperCall.encode, encodeTransaction, Outcome.bind_eq_ok, Outcome.pure_eq_ok, Except.ok.injEq] at h
      obtain ⟨first, -, rest, hRest, rfl⟩ := h
      obtain ⟨spans, hSpans, hLe⟩ := length_le_of_mem hRest hSub
      have hDescendants := length_descendants_le hSpans
      rw [List.length_append] at hSize
      omega
  | vectorTreeNode nodes =>
      exact Nat.lt_of_le_of_lt (length_le_of_vector (fun _ _ => encodeMaybeTreeNode_ne_nil requestId signal) h) hSize
  | _ => trivial

/-- The nodes and the headers of a sub-transaction are among those of its transaction. -/
theorem nodes_subset_of_mem {t : Transaction} {sub : SubTransaction} (h : sub ∈ t) :
    (subTransaction sub).nodes ⊆ (transaction t).nodes :=
  fun _ hNode => List.mem_flatMap.mpr ⟨sub, h, hNode⟩

theorem headers_subset_of_mem {t : Transaction} {sub : SubTransaction} (h : sub ∈ t) :
    (subTransaction sub).headers ⊆ (transaction t).headers := by
  intro header hHeader
  obtain ⟨v, hv, rfl⟩ := List.mem_map.mp hHeader
  exact List.mem_map_of_mem (List.mem_flatMap.mpr ⟨sub, h, hv⟩)

theorem nodes_subset_of_change {sub : SubTransaction} {v : NewNodeVersion} (h : v ∈ sub.changes) :
    v.node.toList ⊆ (subTransaction sub).nodes := by
  rw [nodes_subTransaction]
  exact fun _ hNode => List.mem_flatMap.mpr ⟨v, h, hNode⟩

theorem nodes_subset_of_notification {notifications : List SequentialNotification} {n : SequentialNotification}
    (h : n ∈ notifications) : n.node.toList ⊆ (vectorSequentialNotification notifications).nodes :=
  fun _ hNode => List.mem_flatMap.mpr ⟨n, h, hNode⟩

end Ends

end HelperCall

namespace MessageCall

/-- The methods of the client, which encode requests. -/
def isRequest : MessageCall → Bool
  | getNodeRequest _ | upsertNodeRequest _ | deleteNodeRequest _ | getPageTreeRequest _ | getQueryNodesRequest _
  | openTransactionLayerRequest _ | closeTransactionLayersRequest | applyTransactionRequest _ | getFullTreeRequest
  | registerNodeListenerRequest _ _ _ | deregisterNodeListenerRequest _ _ | notifyListenersRequest _ _
  | processNotificationRequest | getJournalRequest _ => true
  | _ => false

/-- The chunks of the call pushed in turn, on the server or on the client. -/
def push (call : MessageCall) (m : HTTP3TreeMessage) (chunks : List SharedSpan) : Outcome HTTP3TreeMessage :=
  if call.isRequest then m.pushRequestChunks chunks else m.pushResponseChunks chunks

def isComplete (call : MessageCall) (m : HTTP3TreeMessage) : Bool :=
  if call.isRequest then m.requestComplete else m.responseComplete

def chunksIn (call : MessageCall) (m : HTTP3TreeMessage) : List SharedSpan :=
  if call.isRequest then m.requestChunks else m.responseChunks

/-- The `can_decode` that is asked after each chunk. -/
def canDecode (call : MessageCall) (encoded : List SharedSpan) : Outcome (Option ℕ) :=
  if call.isRequest then canDecodeRequest call.signal encoded else canDecodeResponse call.signal encoded

/-- The decode function for the call gives its arguments back, nodes up to how their property
data is cut. Of a journal request only the number is sent. -/
def Returns (m : HTTP3TreeMessage) : MessageCall → Prop
  | getNodeRequest labelRule => m.decodeGetNodeRequest = .ok labelRule
  | getNodeResponse node => ∃ found m', m.decodeGetNodeResponse = .ok (found, m') ∧ SameMaybeNode found node
  | upsertNodeRequest nodes => ∃ found, m.decodeUpsertNodeRequest = .ok found ∧ List.Forall₂ TreeNode.SameNode found nodes
  | upsertNodeResponse success => ∃ m', m.decodeUpsertNodeResponse = .ok (success, m')
  | deleteNodeRequest labelRule => m.decodeDeleteNodeRequest = .ok labelRule
  | deleteNodeResponse success => ∃ m', m.decodeDeleteNodeResponse = .ok (success, m')
  | getPageTreeRequest pageNodeLabelRule => m.decodeGetPageTreeRequest = .ok pageNodeLabelRule
  | getPageTreeResponse nodes =>
      ∃ found m', m.decodeGetPageTreeResponse = .ok (found, m') ∧ List.Forall₂ TreeNode.SameNode found nodes
  | getQueryNodesRequest labelRule => m.decodeGetQueryNodesRequest = .ok labelRule
  | getQueryNodesResponse nodes =>
      ∃ found m', m.decodeGetQueryNodesResponse = .ok (found, m') ∧ List.Forall₂ TreeNode.SameNode found nodes
  | openTransactionLayerRequest node => ∃ found, m.decodeOpenTransactionLayerRequest = .ok found ∧ found.SameNode node
  | openTransactionLayerResponse success => ∃ m', m.decodeOpenTransactionLayerResponse = .ok (success, m')
  | closeTransactionLayersRequest => True
  | closeTransactionLayersResponse success => ∃ m', m.decodeCloseTransactionLayersResponse = .ok (success, m')
  | applyTransactionRequest transaction =>
      ∃ found, m.decodeApplyTransactionRequest = .ok found ∧ SameTransaction found transaction
  | applyTransactionResponse success => ∃ m', m.decodeApplyTransactionResponse = .ok (success, m')
  | getFullTreeRequest => True
  | getFullTreeResponse nodes =>
      ∃ found m', m.decodeGetFullTreeResponse = .ok (found, m') ∧ List.Forall₂ TreeNode.SameNode found nodes
  | registerNodeListenerRequest listenerName labelRule childNotify =>
      m.decodeRegisterNodeListenerRequest = .ok (listenerName, labelRule, some childNotify)
  | registerNodeListenerResponse success => ∃ m', m.decodeRegisterNodeListenerResponse = .ok (success, m')
  | deregisterNodeListenerRequest listenerName labelRule =>
      m.decodeDeregisterNodeListenerRequest = .ok (listenerName, labelRule)
  | deregisterNodeListenerResponse success => ∃ m', m.decodeDeregisterNodeListenerResponse = .ok (success, m')
  | notifyListenersRequest labelRule node =>
      ∃ found, m.decodeNotifyListenersRequest = .ok (labelRule, found) ∧ SameMaybeNode found node
  | notifyListenersResponse success => ∃ m', m.decodeNotifyListenersResponse = .ok (success, m')
  | processNotificationRequest => m.checkRequestComplete = .ok ()
  | processNotificationResponse => ∃ m', m.decodeProcessNotificationResponse = .ok ((), m')
  | getJournalRequest lastNotification => m.decodeGetJournalRequest = .ok ⟨lastNotification.number, [], none⟩
  | getJournalResponse notifications => ∃ found m', m.decodeGetJournalResponse = .ok (found, m') ∧
      List.Forall₂ SameSequentialNotification found notifications

/-- The names and labels that are sent between spaces. -/
def words : MessageCall → List Str
  | registerNodeListenerRequest listenerName labelRule _ => [listenerName, labelRule]
  | deregisterNodeListenerRequest listenerName labelRule => [listenerName, labelRule]
  | notifyListenersRequest labelRule _ => [labelRule]
  | _ => []

def nodes (call : MessageCall) : List TreeNode := call.helpers.flatMap HelperCall.nodes

def headers (call : MessageCall) : List Str := call.helpers.flatMap HelperCall.headers

section Ends

variable {requestId : UInt16} {call : MessageCall} {chunks front back : List SharedSpan} {n : ℕ}

/-- All calls but one call one helper. -/
theorem helpers_cases (call : MessageCall) : (∃ helper, call.helpers = [helper]) ∨
    ∃ labelRule node, call = .notifyListenersRequest labelRule node := by
  cases call <;> simp [helpers]

theorem canDecode_of_helper {helper : HelperCall} (h : call.helpers = [helper]) (encoded : List SharedSpan) :
    call.canDecode encoded = helper.decoder.canDecode 0 encoded := by
  cases call <;> simp only [helpers, List.cons.injEq, and_true, reduceCtorEq, and_false] at h <;> rw [← h] <;> rfl

theorem encode_of_helper {helper : HelperCall} (h : call.helpers = [helper]) :
    call.encode requestId = helper.encode requestId call.signal := by
  rw [encode, h, encodeEach, encodeEach]
  cases helper.encode requestId call.signal with
  | error fault => rfl
  | ok chunks => simp

/-- The label of a notification is looked at first, and its node from there. -/
theorem canDecode_notifyListeners (labelRule : Str) (node : Option TreeNode) (encoded : List SharedSpan) :
    (notifyListenersRequest labelRule node).canDecode encoded =
      canDecodeLabel 0 encoded >>= fun label => canDecodeMaybeTreeNode (label.getD 0) encoded := rfl

end Ends

end MessageCall
end Wwatp
