import Wwatp.Message.HTTP3TreeMessage

/-! Which encoders produce chunks that can go on the wire. -/
namespace Wwatp

open Cxx

/-- A chunk for the wire: one underlying chunk with a payload header, between 1 and
1194 bytes of payload, and a header that announces their number. -/
def SharedSpan.WireLegal (s : SharedSpan) : Prop :=
  s.signalType = 2 ∧ ∃ c, s.chunks = [c] ∧ c.first = 6 ∧ 1 ≤ c.size ∧ c.size ≤ maxPayload ∧
    (PayloadChunkHeader.ofBytes c.data).dataLength.toNat = c.size

/-- Every chunk of the property data fits into a wire chunk and is not empty. -/
def TreeNode.ChunksFit (n : TreeNode) : Prop :=
  ∀ c ∈ n.propertyData.chunks, 1 ≤ c.size ∧ c.size ≤ maxPayload

/-- The nodes an encoder call carries. -/
def HelperCall.nodes : HelperCall → List TreeNode
  | label _ => []
  | longString _ => []
  | maybeTreeNode mnode => mnode.toList
  | sequentialNotification n => n.node.toList
  | vectorSequentialNotification notifications => notifications.flatMap (·.node.toList)
  | newNodeVersion v => v.node.toList
  | subTransaction sub => sub.parent.node.toList ++ sub.descendants.flatMap (·.node.toList)
  | transaction t =>
      t.flatMap fun sub => sub.parent.node.toList ++ sub.descendants.flatMap (·.node.toList)
  | vectorTreeNode nodes => nodes

/-- The call encodes no empty label, and no node with an empty or oversized chunk of
property data. -/
def HelperCall.Fits (call : HelperCall) : Prop :=
  call ≠ .label [] ∧ ∀ node ∈ call.nodes, node.ChunksFit

section

variable {requestId : UInt16} {signal : UInt8}

/-- Data that does not fit behind the header takes more than one chunk. -/
theorem SharedSpan.ofSignal_chunks_ne_singleton {header : ChunkHeader} {data : List UInt8}
    (h : chunkSize - header.size < data.length) (c : Chunk) :
    (SharedSpan.ofSignal header data).chunks ≠ [c] := by
  have hRest : data.drop (chunkSize - header.size) ≠ [] := by
    rw [ne_eq, List.drop_eq_nil_iff]
    omega
  rw [SharedSpan.ofSignal, List.blocks_of_ne_nil (by decide) hRest]
  simp

theorem wireLegal_payloadSpan_iff {payload : List UInt8} (h : payload.length < 2 ^ 16) :
    (payloadSpan requestId signal payload).WireLegal ↔
      1 ≤ payload.length ∧ payload.length ≤ maxPayload := by
  have hRoom (header : PayloadChunkHeader) : chunkSize - (ChunkHeader.payload header).size = maxPayload :=
    rfl
  rcases Nat.lt_or_ge maxPayload payload.length with hLong | hFits
  · have hNot : ¬(payloadSpan requestId signal payload).WireLegal := by
      rintro ⟨-, c, hChunks, -⟩
      exact SharedSpan.ofSignal_chunks_ne_singleton (by rw [hRoom]; exact hLong) c hChunks
    simp [hNot, Nat.not_le.mpr hLong]
  · let header : PayloadChunkHeader := ⟨requestId, signal, .ofNat payload.length⟩
    let chunk := Chunk.ofHeader (.payload header) payload
    have hSpan : payloadSpan requestId signal payload = ⟨[chunk], 2⟩ :=
      payloadSpan_of_le requestId signal hFits
    have hSize : chunk.size = payload.length := by
      rw [← Chunk.body_length, Chunk.body_ofHeader, hRoom, List.take_of_length_le hFits]
    have hHeader : (PayloadChunkHeader.ofBytes chunk.data).dataLength.toNat = payload.length := by
      rw [show PayloadChunkHeader.ofBytes chunk.data = header from
        PayloadChunkHeader.ofBytes_toBytes header _]
      exact UInt16.toNat_ofNat_of_lt' h
    rw [hSpan]
    constructor
    · rintro ⟨-, c, hChunks, -, hPos, hLe, -⟩
      obtain rfl := List.singleton_inj.mp hChunks
      rw [hSize] at hPos hLe
      exact ⟨hPos, hLe⟩
    · rintro ⟨hPos, hLe⟩
      refine ⟨rfl, chunk, rfl, rfl, ?_⟩
      rw [hSize, hHeader]
      exact ⟨hPos, hLe, rfl⟩

theorem allLegal_append {front back : List SharedSpan} :
    (∀ s ∈ front ++ back, s.WireLegal) ↔ (∀ s ∈ front, s.WireLegal) ∧ ∀ s ∈ back, s.WireLegal :=
  List.forall_mem_append

/-- A long string is cut into legal chunks, whatever its length. -/
theorem encodeLongString_legal (s : Str) :
    ∀ span ∈ encodeLongString requestId signal s, span.WireLegal := by
  intro span hSpan
  rcases List.mem_cons.mp hSpan with rfl | hMore
  · have hLength : (leBytes 8 s.length ++ s.take (maxPayload - 8)).length =
        8 + min (maxPayload - 8) s.length := by
      rw [List.length_append, leBytes_length, List.length_take]
    rw [wireLegal_payloadSpan_iff] <;> rw [hLength] <;> unfold maxPayload <;> omega
  · obtain ⟨block, hBlock, rfl⟩ := List.mem_map.mp hMore
    have hLength := List.length_of_mem_blocks (show 0 < maxPayload by decide) hBlock
    rw [wireLegal_payloadSpan_iff]
    · exact hLength
    · exact Nat.lt_of_le_of_lt hLength.2 (by decide)

theorem encodeLabel_legal_iff {label : Str} {spans : List SharedSpan}
    (h : encodeLabel requestId signal label = .ok spans) :
    (∀ s ∈ spans, s.WireLegal) ↔ label ≠ [] := by
  rw [encodeLabel] at h
  split_ifs at h with hLong
  obtain rfl := Except.ok.inj h
  have hLe : label.length ≤ maxPayload := Nat.not_lt.mp hLong
  rw [List.forall_mem_singleton, wireLegal_payloadSpan_iff (Nat.lt_of_le_of_lt hLe (by decide)),
    ← List.length_pos_iff]
  exact ⟨And.left, fun hPos => ⟨hPos, hLe⟩⟩

/-- A number is never an empty label. -/
theorem encodeLabel_toDecimal_legal {count : ℕ} {spans : List SharedSpan}
    (h : encodeLabel requestId signal (toDecimal count) = .ok spans) :
    ∀ s ∈ spans, s.WireLegal := by
  rw [encodeLabel_legal_iff h]
  obtain ⟨d, rest, -, hText⟩ := toBase_cons (show 1 < 10 by decide) count
  rw [toDecimal, hText]
  exact List.cons_ne_nil _ _

theorem propertyChunks_legal_iff (mnode : Option TreeNode) :
    (∀ s ∈ propertyChunks requestId signal mnode, s.WireLegal) ↔
      ∀ node ∈ mnode.toList, node.ChunksFit := by
  cases mnode with
  | none => simp [propertyChunks]
  | some node =>
      have hWrapped (c : Chunk) : (SharedSpan.ofSignal
          (.payload ⟨requestId, signal, .ofNat c.size⟩) c.body).WireLegal ↔
            1 ≤ c.size ∧ c.size ≤ maxPayload := by
        have hShort : c.body.length < 2 ^ 16 := by
          rw [Chunk.body_length]
          exact Nat.lt_trans c.size_lt (by decide)
        rw [← c.body_length]
        exact wireLegal_payloadSpan_iff hShort
      simp only [propertyChunks, SharedSpan.flattenWithSignal, List.forall_mem_map, hWrapped,
        Option.toList_some, List.forall_mem_singleton, TreeNode.ChunksFit]

theorem encodeMaybeTreeNode_legal_iff {mnode : Option TreeNode} {spans : List SharedSpan}
    (h : encodeMaybeTreeNode requestId signal mnode = .ok spans) :
    (∀ s ∈ spans, s.WireLegal) ↔ ∀ node ∈ mnode.toList, node.ChunksFit := by
  rw [encodeMaybeTreeNode, Outcome.bind_eq_ok] at h
  obtain ⟨text, -, hSpans⟩ := h
  obtain rfl := Except.ok.inj hSpans
  rw [allLegal_append, propertyChunks_legal_iff]
  exact and_iff_right (encodeLongString_legal text)

/-- Elements encoded one after another are legal when each of them is. -/
theorem encodeEach_legal_iff {α : Type} {encode : α → Outcome (List SharedSpan)} {P : α → Prop}
    (hEach : ∀ a spans, encode a = .ok spans → ((∀ s ∈ spans, s.WireLegal) ↔ P a)) {l : List α}
    {spans : List SharedSpan} (h : encodeEach encode l = .ok spans) :
    (∀ s ∈ spans, s.WireLegal) ↔ ∀ a ∈ l, P a := by
  induction l generalizing spans with
  | nil =>
      obtain rfl := Except.ok.inj h
      simp
  | cons a rest ih =>
      simp only [encodeEach, Outcome.bind_eq_ok, Outcome.pure_eq_ok, Except.ok.injEq] at h
      obtain ⟨first, hFirst, more, hMore, rfl⟩ := h
      rw [allLegal_append, hEach a first hFirst, ih hMore, List.forall_mem_cons]

theorem encodeSequentialNotification_legal_iff {n : SequentialNotification} {spans : List SharedSpan}
    (h : encodeSequentialNotification requestId signal n = .ok spans) :
    (∀ s ∈ spans, s.WireLegal) ↔ ∀ node ∈ n.node.toList, node.ChunksFit := by
  rw [encodeSequentialNotification, Outcome.bind_eq_ok] at h
  obtain ⟨maybeTree, hNode, hSpans⟩ := h
  obtain rfl := Except.ok.inj hSpans
  rw [allLegal_append, encodeMaybeTreeNode_legal_iff hNode]
  exact and_iff_right (encodeLongString_legal _)

theorem encodeNewNodeVersion_legal_iff {v : NewNodeVersion} {spans : List SharedSpan}
    (h : encodeNewNodeVersion requestId signal v = .ok spans) :
    (∀ s ∈ spans, s.WireLegal) ↔ ∀ node ∈ v.node.toList, node.ChunksFit := by
  rw [encodeNewNodeVersion, Outcome.bind_eq_ok] at h
  obtain ⟨maybeTree, hNode, hSpans⟩ := h
  obtain rfl := Except.ok.inj hSpans
  rw [allLegal_append, encodeMaybeTreeNode_legal_iff hNode]
  exact and_iff_right (encodeLongString_legal _)

theorem encodeSubTransaction_legal_iff {sub : SubTransaction} {spans : List SharedSpan}
    (h : encodeSubTransaction requestId signal sub = .ok spans) :
    (∀ s ∈ spans, s.WireLegal) ↔
      ∀ node ∈ sub.parent.node.toList ++ sub.descendants.flatMap (·.node.toList),
        node.ChunksFit := by
  simp only [encodeSubTransaction, Outcome.bind_eq_ok, Outcome.pure_eq_ok, Except.ok.injEq] at h
  obtain ⟨count, hCount, parent, hParent, descendants, hDescendants, rfl⟩ := h
  rw [allLegal_append, allLegal_append, encodeNewNodeVersion_legal_iff hParent,
    encodeEach_legal_iff (fun _ _ => encodeNewNodeVersion_legal_iff) hDescendants,
    List.forall_mem_append, List.forall_mem_flatMap]
  exact and_congr_left' (and_iff_right (encodeLabel_toDecimal_legal hCount))

/-- Every helper produces legal chunks exactly when its arguments fit. -/
theorem HelperCall.legal_iff {call : HelperCall} {spans : List SharedSpan}
    (h : call.encode requestId signal = .ok spans) :
    (∀ s ∈ spans, s.WireLegal) ↔ call.Fits := by
  cases call with
  | label s =>
      rw [encodeLabel_legal_iff h]
      simp [Fits, nodes]
  | longString s =>
      obtain rfl := Except.ok.inj h
      simpa [Fits, nodes] using encodeLongString_legal s
  | maybeTreeNode mnode => simpa [Fits, nodes] using encodeMaybeTreeNode_legal_iff h
  | sequentialNotification n => simpa [Fits, nodes] using encodeSequentialNotification_legal_iff h
  | newNodeVersion v => simpa [Fits, nodes] using encodeNewNodeVersion_legal_iff h
  | subTransaction sub => simpa [Fits, nodes] using encodeSubTransaction_legal_iff h
  | vectorSequentialNotification notifications =>
      simp only [encode, encodeVectorSequentialNotification, Outcome.bind_eq_ok,
        Outcome.pure_eq_ok, Except.ok.injEq] at h
      obtain ⟨count, hCount, each, hEach, rfl⟩ := h
      rw [allLegal_append, and_iff_right (encodeLabel_toDecimal_legal hCount),
        encodeEach_legal_iff (fun _ _ => encodeSequentialNotification_legal_iff) hEach, Fits,
        and_iff_right (show vectorSequentialNotification notifications ≠ label [] by simp), nodes, List.forall_mem_flatMap]
  | transaction t =>
      simp only [encode, encodeTransaction, Outcome.bind_eq_ok, Outcome.pure_eq_ok,
        Except.ok.injEq] at h
      obtain ⟨count, hCount, each, hEach, rfl⟩ := h
      rw [allLegal_append, and_iff_right (encodeLabel_toDecimal_legal hCount),
        encodeEach_legal_iff (fun _ _ => encodeSubTransaction_legal_iff) hEach, Fits,
        and_iff_right (show transaction t ≠ label [] by simp), nodes, List.forall_mem_flatMap]
  | vectorTreeNode nodes =>
      simp only [encode, encodeVectorTreeNode, Outcome.bind_eq_ok, Outcome.pure_eq_ok,
        Except.ok.injEq] at h
      obtain ⟨count, hCount, each, hEach, rfl⟩ := h
      rw [allLegal_append, and_iff_right (encodeLabel_toDecimal_legal hCount),
        encodeEach_legal_iff (fun _ _ => encodeMaybeTreeNode_legal_iff) hEach, Fits,
        and_iff_right (show vectorTreeNode nodes ≠ label [] by simp), HelperCall.nodes]
      simp

end

section Payload

variable {requestId : UInt16} {signal : UInt8} {spans : List SharedSpan}

/-- Every span has a payload header. -/
def AllPayload (spans : List SharedSpan) : Prop := ∀ s ∈ spans, s.signalType = 2

/-- Every span is made with a payload header of the message. -/
def EncodedFor (requestId : UInt16) (signal : UInt8) (spans : List SharedSpan) : Prop :=
  ∀ s ∈ spans, ∃ dataLength data, s = .ofSignal (.payload ⟨requestId, signal, dataLength⟩) data

theorem EncodedFor.allPayload (h : EncodedFor requestId signal spans) : AllPayload spans := by
  intro s hMem
  obtain ⟨dataLength, data, rfl⟩ := h s hMem
  rfl

theorem EncodedFor.append {front back : List SharedSpan} (hFront : EncodedFor requestId signal front)
    (hBack : EncodedFor requestId signal back) : EncodedFor requestId signal (front ++ back) :=
  fun s hMem => (List.mem_append.mp hMem).elim (hFront s) (hBack s)

theorem encodeLabel_encodedFor {label : Str} (h : encodeLabel requestId signal label = .ok spans) :
    EncodedFor requestId signal spans := by
  rw [encodeLabel] at h
  split_ifs at h
  obtain rfl := Except.ok.inj h
  exact List.forall_mem_singleton.mpr ⟨_, _, rfl⟩

theorem encodeLongString_encodedFor (s : Str) : EncodedFor requestId signal (encodeLongString requestId signal s) := by
  intro span hSpan
  rcases List.mem_cons.mp hSpan with rfl | hMore
  · exact ⟨_, _, rfl⟩
  · obtain ⟨block, -, rfl⟩ := List.mem_map.mp hMore
    exact ⟨_, _, rfl⟩

theorem encodeMaybeTreeNode_encodedFor {mnode : Option TreeNode}
    (h : encodeMaybeTreeNode requestId signal mnode = .ok spans) : EncodedFor requestId signal spans := by
  obtain ⟨text, -, hSpans⟩ := Outcome.bind_eq_ok.mp h
  obtain rfl := Except.ok.inj hSpans
  refine (encodeLongString_encodedFor text).append ?_
  cases mnode with
  | none => exact List.forall_mem_nil _
  | some node => exact List.forall_mem_map.mpr fun _ _ => ⟨_, _, rfl⟩

theorem encodeEach_encodedFor {α : Type} {encode : α → Outcome (List SharedSpan)} {l : List α}
    (hEach : ∀ a spans, encode a = .ok spans → EncodedFor requestId signal spans)
    (h : encodeEach encode l = .ok spans) : EncodedFor requestId signal spans := by
  induction l generalizing spans with
  | nil =>
      obtain rfl := Except.ok.inj h
      exact List.forall_mem_nil _
  | cons a rest ih =>
      simp only [encodeEach, Outcome.bind_eq_ok, Outcome.pure_eq_ok, Except.ok.injEq] at h
      obtain ⟨first, hFirst, more, hMore, rfl⟩ := h
      exact (hEach a first hFirst).append (ih hMore)

theorem encodeSequentialNotification_encodedFor {n : SequentialNotification}
    (h : encodeSequentialNotification requestId signal n = .ok spans) : EncodedFor requestId signal spans := by
  obtain ⟨maybeTree, hNode, hSpans⟩ := Outcome.bind_eq_ok.mp h
  obtain rfl := Except.ok.inj hSpans
  exact (encodeLongString_encodedFor _).append (encodeMaybeTreeNode_encodedFor hNode)

theorem encodeNewNodeVersion_encodedFor {v : NewNodeVersion}
    (h : encodeNewNodeVersion requestId signal v = .ok spans) : EncodedFor requestId signal spans := by
  obtain ⟨maybeTree, hNode, hSpans⟩ := Outcome.bind_eq_ok.mp h
  obtain rfl := Except.ok.inj hSpans
  exact (encodeLongString_encodedFor _).append (encodeMaybeTreeNode_encodedFor hNode)

theorem encodeSubTransaction_encodedFor {sub : SubTransaction}
    (h : encodeSubTransaction requestId signal sub = .ok spans) : EncodedFor requestId signal spans := by
  simp only [encodeSubTransaction, Outcome.bind_eq_ok, Outcome.pure_eq_ok, Except.ok.injEq] at h
  obtain ⟨count, hCount, parent, hParent, descendants, hDescendants, rfl⟩ := h
  exact ((encodeLabel_encodedFor hCount).append (encodeNewNodeVersion_encodedFor hParent)).append
    (encodeEach_encodedFor (fun _ _ => encodeNewNodeVersion_encodedFor) hDescendants)

theorem HelperCall.encode_encodedFor {call : HelperCall}
    (h : call.encode requestId signal = .ok spans) : EncodedFor requestId signal spans := by
  cases call with
  | label s => exact encodeLabel_encodedFor h
  | longString s =>
      obtain rfl := Except.ok.inj h
      exact encodeLongString_encodedFor s
  | maybeTreeNode mnode => exact encodeMaybeTreeNode_encodedFor h
  | sequentialNotification n => exact encodeSequentialNotification_encodedFor h
  | newNodeVersion v => exact encodeNewNodeVersion_encodedFor h
  | subTransaction sub => exact encodeSubTransaction_encodedFor h
  | vectorSequentialNotification notifications =>
      simp only [encode, encodeVectorSequentialNotification, Outcome.bind_eq_ok,
        Outcome.pure_eq_ok, Except.ok.injEq] at h
      obtain ⟨count, hCount, each, hEach, rfl⟩ := h
      exact (encodeLabel_encodedFor hCount).append
        (encodeEach_encodedFor (fun _ _ => encodeSequentialNotification_encodedFor) hEach)
  | transaction t =>
      simp only [encode, encodeTransaction, Outcome.bind_eq_ok, Outcome.pure_eq_ok,
        Except.ok.injEq] at h
      obtain ⟨count, hCount, each, hEach, rfl⟩ := h
      exact (encodeLabel_encodedFor hCount).append
        (encodeEach_encodedFor (fun _ _ => encodeSubTransaction_encodedFor) hEach)
  | vectorTreeNode nodes =>
      simp only [encode, encodeVectorTreeNode, Outcome.bind_eq_ok, Outcome.pure_eq_ok,
        Except.ok.injEq] at h
      obtain ⟨count, hCount, each, hEach, rfl⟩ := h
      exact (encodeLabel_encodedFor hCount).append
        (encodeEach_encodedFor (fun _ _ => encodeMaybeTreeNode_encodedFor) hEach)

theorem MessageCall.encode_encodedFor {call : MessageCall} (h : call.encode requestId = .ok spans) :
    EncodedFor requestId call.signal spans :=
  encodeEach_encodedFor (fun _ _ => HelperCall.encode_encodedFor) h

theorem MessageCall.encode_payload {call : MessageCall} (h : call.encode requestId = .ok spans) :
    AllPayload spans :=
  (call.encode_encodedFor h).allPayload

end Payload

/-- A call of a helper encoder or of a method of `HTTP3TreeMessage`. -/
inductive EncoderCall
  | helper (signal : UInt8) (call : HelperCall)
  | message (call : MessageCall)

namespace EncoderCall

def encode (requestId : UInt16) : EncoderCall → Outcome (List SharedSpan)
  | helper signal call => call.encode requestId signal
  | message call => call.encode requestId

def helpers : EncoderCall → List HelperCall
  | helper _ call => [call]
  | message call => call.helpers

/-- An encoder that accepts its arguments produces legal chunks only, exactly when none
of its labels is empty and every chunk of property data holds 1 to 1194 bytes. -/
theorem encode_legal_iff (requestId : UInt16) (call : EncoderCall) (spans : List SharedSpan)
    (h : call.encode requestId = .ok spans) :
    (∀ s ∈ spans, s.WireLegal) ↔ ∀ helper ∈ call.helpers, helper.Fits := by
  cases call with
  | helper signal call =>
      rw [helpers, List.forall_mem_singleton]
      exact HelperCall.legal_iff h
  | message call => exact encodeEach_legal_iff (fun _ _ => HelperCall.legal_iff) h

/-- The response that there is no node. -/
theorem encode_legal_iff_getNodeResponse :
    (∀ s ∈ [payloadSpan 1 0x08 (leBytes 8 7 ++ str "Nothing")], s.WireLegal) ↔
      ∀ helper ∈ (message (.getNodeResponse none)).helpers, helper.Fits :=
  encode_legal_iff 1 (.message (.getNodeResponse none)) _ rfl

/-- The request for the full tree is a chunk without payload. -/
theorem getFullTreeRequest_not_legal :
    ∃ spans, (message .getFullTreeRequest).encode 1 = .ok spans ∧ ¬∀ s ∈ spans, s.WireLegal := by
  refine ⟨[payloadSpan 1 0x17 []], rfl, ?_⟩
  rw [List.forall_mem_singleton, wireLegal_payloadSpan_iff (by decide)]
  decide

end EncoderCall
end Wwatp
