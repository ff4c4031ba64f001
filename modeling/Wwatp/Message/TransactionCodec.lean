import Wwatp.Message.MaybeTreeNodeCodec

/-! The codecs of notifications and of transactions: a header text, an optional node, and
vectors of these behind their number. The decoders take the header from one chunk. -/
namespace Wwatp

open Cxx Cxx.Reader

theorem length_toDecimal_le {n : ℕ} (h : n < 2 ^ 64) : (toDecimal n).length ≤ 20 :=
  toBase_length_le (by decide) (by decide) (Nat.lt_trans h (by norm_num))

/-- The label behind what has been read and one space. -/
theorem labelFrom_tellg (front label : Str) :
    labelFrom (front ++ str " " ++ label)
      ((IStream.ofStr (str " " ++ label)).tellg (front ++ str " " ++ label)) = .ok label := by
  have hTellg : (IStream.ofStr (str " " ++ label)).tellg (front ++ str " " ++ label) =
      some front.length := by
    have hRest : (str " " ++ label).length ≤ (front ++ str " " ++ label).length := by
      simp only [List.length_append]
      omega
    rw [IStream.tellg, if_pos (IStream.good_ofStr _)]
    simp only [IStream.ofStr, List.length_append, Option.some.injEq]
    omega
  have hStart : front.length + 1 = (front ++ str " ").length := by
    rw [List.length_append]
    rfl
  rw [hTellg, labelFrom]
  simp only [hStart]
  rw [if_neg (by simp only [List.length_append]; omega), List.drop_left]

/-- A label is never longer than the text it is taken from. -/
theorem length_of_labelFrom {text label : Str} {tellg : Option ℕ}
    (h : labelFrom text tellg = .ok label) : label.length ≤ text.length := by
  simp only [labelFrom] at h
  split_ifs at h
  obtain rfl := Except.ok.inj h
  rw [List.length_drop]
  exact Nat.sub_le _ _

section

variable (requestId : UInt16) (signal : UInt8)

/-- A chunk with a payload is one that a label can be taken from. -/
theorem canDecodeLabel_payloadSpan {payload : List UInt8} (hFits : payload.length ≤ maxPayload)
    {start : ℕ} {encoded : List SharedSpan}
    (hChunk : encoded[start]? = some (payloadSpan requestId signal payload)) :
    canDecodeLabel start encoded = .ok (some (start + 1)) := by
  let header : PayloadChunkHeader := ⟨requestId, signal, .ofNat payload.length⟩
  have hData : PayloadChunkHeader.ofBytes (payloadChunk requestId signal payload).data = header :=
    PayloadChunkHeader.ofBytes_toBytes header _
  have hLength : header.dataLength.toNat = payload.length :=
    UInt16.toNat_ofNat_of_lt' (Nat.lt_of_le_of_lt hFits (by decide))
  have hWire : (payloadSpan requestId signal payload).getWireSize = .ok header.wireSize := by
    rw [payloadSpan_of_le requestId signal hFits, ← hData]
    rfl
  have hSignal : (payloadSpan requestId signal payload).getPayloadSignal = .ok header := by
    rw [payloadSpan_of_le requestId signal hFits, ← hData]
    rfl
  have hSix : ¬header.wireSize < 6 := Nat.not_lt.mpr (Nat.le_add_right 6 _)
  have hSize : ¬(payloadSpan requestId signal payload).size < header.dataLength.toNat := by
    rw [size_payloadSpan, hLength]
    exact Nat.lt_irrefl _
  simp only [canDecodeLabel, hChunk, hWire, Outcome.ok_bind, if_neg hSix, hSignal, if_neg hSize,
    Outcome.pure_eq_ok]

/-- A header text in one chunk. -/
theorem encodeLongString_header {text : Str} (h : text.length ≤ 1186) :
    encodeLongString requestId signal text =
      [payloadSpan requestId signal (leBytes 8 text.length ++ text)] := by
  have hFits : text.length ≤ maxPayload - 8 := h
  rw [encodeLongString, List.take_of_length_le hFits, List.drop_eq_nil_of_le hFits]
  rfl

/-- What the decoders make of a long header text: nothing they accept, or a shorter text. -/
theorem decodeLongString_header {text : Str} (hLong : 1186 < text.length) (hSize : text.length < 2 ^ 64)
    {back : List SharedSpan} {used : ℕ} {part : Str} (hOne : longStringChunks text.length = 1)
    (h : decodeLongString (encodeLongString requestId signal text ++ back) = .ok (used, part)) :
    part.length + 2 ^ 31 ≤ text.length := by
  have hHuge : 2 ^ 31 + 1186 ≤ text.length := by
    by_contra hFits
    have hCount := longStringChunks_of_lt (Nat.not_le.mp hFits)
    omega
  rw [decodeLongString_encode requestId signal hSize, hOne] at h
  obtain ⟨-, rfl⟩ := Prod.mk.inj (Except.ok.inj h)
  rw [List.length_take]
  omega

/-- A header of one chunk stands before a node. -/
theorem canDecodeLongString_header {text : Str} (h : text.length ≤ 1186) (front back : List SharedSpan) :
    canDecodeLongString front.length (front ++ encodeLongString requestId signal text ++ back) =
      .ok (some (front.length + 1)) := by
  rw [canDecodeLongString_encode requestId signal (by omega), longStringChunks_of_lt (by omega)]
  congr 3
  omega

theorem decodeLongString_header_of_le {text : Str} (h : text.length ≤ 1186) (back : List SharedSpan) :
    decodeLongString (encodeLongString requestId signal text ++ back) = .ok (1, text) := by
  rw [decodeLongString_encode_of_lt requestId signal (by omega), encodeLongString_header _ _ h]
  rfl

/-- An encoded node takes at least one chunk. -/
theorem encodeMaybeTreeNode_ne_nil {mnode : Option TreeNode} {chunks : List SharedSpan}
    (h : encodeMaybeTreeNode requestId signal mnode = .ok chunks) : chunks.length ≠ 0 := by
  obtain ⟨text, -, h⟩ := Outcome.bind_eq_ok.mp h
  obtain rfl := Except.ok.inj h
  rw [ne_eq, List.length_eq_zero_iff, List.append_eq_nil_iff]
  exact fun hNil => encodeLongString_ne_nil requestId signal text hNil.1

def newNodeVersionCodec : Codec NewNodeVersion where
  encode := encodeNewNodeVersion requestId signal
  decode := decodeNewNodeVersion
  canDecode := canDecodeNewNodeVersion

/-- The same change, up to how the property data of its node is cut. -/
structure SameNewNodeVersion (a b : NewNodeVersion) : Prop where
  priorVersion : a.priorVersion = b.priorVersion
  labelRule : a.labelRule = b.labelRule
  node : SameMaybeNode a.node b.node

/-- The expected version is read up to the space in front of the label. -/
theorem readPriorVersion_text (v : NewNodeVersion) :
    readPriorVersion (.ofStr (newNodeVersionText v)) =
      .ok (v.priorVersion, .ofStr (str " " ++ v.labelRule)) := by
  rw [newNodeVersionText]
  cases v.priorVersion with
  | none =>
      have hNothing : Reads readPriorVersion (str "Nothing" ++ []) (str " " ++ v.labelRule) none := by
        refine (reads_first (str "Nothing") (by decide +kernel) (by rfl)).bind ?_
        rw [if_pos rfl]
        exact reads_pure none
      rw [Reads, List.append_nil, ← List.append_assoc] at hNothing
      exact hNothing
  | some version =>
      have hNe : ¬str "Just" = str "Nothing" := by decide +kernel
      have hJust : Reads readPriorVersion (str "Just" ++ ((str " " ++ toDecimal version.toNat) ++ []))
          (str " " ++ v.labelRule) (some version) := by
        refine (reads_first (str "Just") (by decide +kernel) (by rfl)).bind ?_
        rw [if_neg hNe]
        refine (reads_unsigned version.toNat_lt (str " ") (by decide +kernel) (by rfl)).bind ?_
        exact (reads_written version.toNat).map (by rw [UInt16.ofNat_toNat])
      rw [Reads, List.append_nil] at hJust
      simp only [List.append_assoc] at hJust ⊢
      exact hJust

theorem length_newNodeVersionText_le (v : NewNodeVersion) :
    (newNodeVersionText v).length ≤ v.labelRule.length + 26 := by
  rw [newNodeVersionText]
  cases v.priorVersion with
  | none =>
      have hNothing : (str "Nothing" ++ str " ").length = 8 := rfl
      rw [maybeText, List.length_append, hNothing]
      omega
  | some version =>
      have hJust : (str "Just ").length = 5 := rfl
      have hSpace : (str " ").length = 1 := rfl
      have hNumber := length_toDecimal_le (Nat.lt_trans version.toNat_lt (by norm_num))
      simp only [maybeText, List.length_append, hJust, hSpace]
      omega

/-- The chunks of a header and of a node behind it. -/
structure HeaderNode (text : Str) (mnode : Option TreeNode) (header nodeChunks : List SharedSpan) :
    Prop where
  header_eq : header = encodeLongString requestId signal text
  encode_node : encodeMaybeTreeNode requestId signal mnode = .ok nodeChunks
  node : ∀ front back : List SharedSpan, (front ++ nodeChunks ++ back).length < 2 ^ 64 →
    canDecodeMaybeTreeNode front.length (front ++ nodeChunks ++ back) =
      .ok (some (front.length + nodeChunks.length)) ∧
    ∃ b, decodeMaybeTreeNode ((front ++ nodeChunks ++ back).drop front.length) =
      .ok (nodeChunks.length, b) ∧ SameMaybeNode b mnode

namespace HeaderNode

variable {requestId signal} {text : Str} {mnode : Option TreeNode}
  {header nodeChunks front back : List SharedSpan}

theorem of_roundTrips (text : Str)
    (h : (maybeTreeNodeCodec requestId signal).RoundTrips SameMaybeNode mnode) :
    ∃ nodeChunks, HeaderNode requestId signal text mnode (encodeLongString requestId signal text)
      nodeChunks := by
  obtain ⟨nodeChunks, hEncode, hAll⟩ := h
  exact ⟨nodeChunks, rfl, hEncode, hAll⟩

theorem header_eq_singleton (h : HeaderNode requestId signal text mnode header nodeChunks)
    (hFits : text.length ≤ 1186) :
    header = [payloadSpan requestId signal (leBytes 8 text.length ++ text)] :=
  h.header_eq.trans (encodeLongString_header requestId signal hFits)

theorem length_eq (h : HeaderNode requestId signal text mnode header nodeChunks)
    (hFits : text.length ≤ 1186) : (header ++ nodeChunks).length = 1 + nodeChunks.length := by
  rw [h.header_eq_singleton hFits, List.length_append, List.length_singleton]

/-- The first of the chunks can be taken for a label and for a long string. -/
theorem canDecode_header (h : HeaderNode requestId signal text mnode header nodeChunks)
    (hFits : text.length ≤ 1186) (front back : List SharedSpan) :
    ∃ chunk, (front ++ (header ++ nodeChunks) ++ back)[front.length]? = some chunk ∧
      ¬chunk.size < 6 ∧
      canDecodeLabel front.length (front ++ (header ++ nodeChunks) ++ back) =
        .ok (some (front.length + 1)) ∧
      canDecodeLongString front.length (front ++ (header ++ nodeChunks) ++ back) =
        .ok (some (front.length + 1)) := by
  have hLength : (leBytes 8 text.length ++ text).length = 8 + text.length := by
    rw [List.length_append, leBytes_length]
  have hChunk : (front ++ (header ++ nodeChunks) ++ back)[front.length]? =
      some (payloadSpan requestId signal (leBytes 8 text.length ++ text)) := by
    rw [h.header_eq_singleton hFits, List.append_assoc, List.getElem?_append_right (Nat.le_refl _),
      Nat.sub_self]
    rfl
  refine ⟨_, hChunk, ?_, canDecodeLabel_payloadSpan requestId signal ?_ hChunk, ?_⟩
  · rw [size_payloadSpan, hLength]
    omega
  · rw [hLength, maxPayload]
    omega
  · rw [h.header_eq, ← List.append_assoc, List.append_assoc]
    exact canDecodeLongString_header requestId signal hFits front (nodeChunks ++ back)

/-- The end of the node is found behind the header. -/
theorem canDecode_node (h : HeaderNode requestId signal text mnode header nodeChunks)
    (hFits : text.length ≤ 1186)
    (hSize : (front ++ (header ++ nodeChunks) ++ back).length < 2 ^ 64) :
    canDecodeMaybeTreeNode (front.length + 1) (front ++ (header ++ nodeChunks) ++ back) =
      .ok (some (front.length + (header ++ nodeChunks).length)) := by
  have hBefore : (front ++ header).length = front.length + 1 := by
    rw [h.header_eq_singleton hFits, List.length_append, List.length_singleton]
  have hSplit : front ++ (header ++ nodeChunks) ++ back = front ++ header ++ nodeChunks ++ back := by
    simp only [List.append_assoc]
  rw [hSplit] at hSize ⊢
  have hCan := (h.node (front ++ header) back hSize).1
  rwa [hBefore, Nat.add_assoc, ← h.length_eq hFits] at hCan

/-- What is decoded from the header, and from the chunks behind it. -/
theorem decode (h : HeaderNode requestId signal text mnode header nodeChunks)
    (hFits : text.length ≤ 1186) (hSize : (header ++ (nodeChunks ++ back)).length < 2 ^ 64) :
    canDecodeLongString 0 (header ++ (nodeChunks ++ back)) = .ok (some 1) ∧
    decodeLongString (header ++ (nodeChunks ++ back)) = .ok (1, text) ∧
    ∃ b, consuming (str "Cannot decode MaybeTreeNode") decodeMaybeTreeNode
        ((header ++ (nodeChunks ++ back)).drop 1) = .ok (nodeChunks.length, b) ∧
      SameMaybeNode b mnode := by
  have hCan := canDecodeLongString_header requestId signal hFits [] (nodeChunks ++ back)
  have hText := decodeLongString_header_of_le requestId signal hFits (nodeChunks ++ back)
  rw [List.nil_append, List.length_nil, Nat.zero_add, ← h.header_eq] at hCan
  rw [← h.header_eq] at hText
  have hBehind : (header ++ (nodeChunks ++ back)).drop 1 = nodeChunks ++ back := by
    rw [h.header_eq_singleton hFits]
    rfl
  obtain ⟨-, b, hDecode, hSame⟩ := h.node header back (by rwa [List.append_assoc])
  rw [List.append_assoc, List.drop_left] at hDecode
  rw [hBehind]
  exact ⟨hCan, hText, b, consuming_ok hDecode (encodeMaybeTreeNode_ne_nil _ _ h.encode_node), hSame⟩

/-- A decoder that takes the header from one chunk sees at most 1186 bytes of it. -/
theorem decode_long (h : HeaderNode requestId signal text mnode header nodeChunks)
    (hLong : 1186 < text.length) (hSize : text.length < 2 ^ 64) {count used : ℕ} {part : Str}
    (hCan : canDecodeLongString 0 (header ++ (nodeChunks ++ back)) = .ok (some count))
    (hOne : count = 1) (hPart : decodeLongString (header ++ (nodeChunks ++ back)) = .ok (used, part)) :
    part.length + 2 ^ 31 ≤ text.length := by
  have hCount := canDecodeLongString_encode requestId signal hSize [] (nodeChunks ++ back)
  rw [List.nil_append, List.length_nil, Nat.zero_add] at hCount
  rw [h.header_eq] at hCan hPart
  obtain rfl := Option.some.inj (Except.ok.inj (hCount.symm.trans hCan))
  exact decodeLongString_header requestId signal hLong hSize hOne hPart

end HeaderNode

/-- A change round-trips exactly when its header fits into one chunk. -/
theorem newNodeVersionCodec_roundTripsWhen {v : NewNodeVersion}
    (hNode : (maybeTreeNodeCodec requestId signal).RoundTrips SameMaybeNode v.node)
    (hLabel : v.labelRule.length < 2 ^ 63) :
    (newNodeVersionCodec requestId signal).RoundTripsWhen SameNewNodeVersion
      ((newNodeVersionText v).length ≤ 1186) v := by
  obtain ⟨nodeChunks, h⟩ := HeaderNode.of_roundTrips (newNodeVersionText v) hNode
  generalize encodeLongString requestId signal (newNodeVersionText v) = header at h
  have hEncode : encodeNewNodeVersion requestId signal v = .ok (header ++ nodeChunks) := by
    rw [encodeNewNodeVersion, h.encode_node, h.header_eq]
    rfl
  have hFrom : labelFrom (newNodeVersionText v)
      ((IStream.ofStr (str " " ++ v.labelRule)).tellg (newNodeVersionText v)) = .ok v.labelRule :=
    labelFrom_tellg _ v.labelRule
  constructor
  · intro hFits
    refine ⟨header ++ nodeChunks, hEncode, fun front back hSize => ⟨?_, ?_⟩⟩
    · obtain ⟨chunk, hChunk, hSix, hEnd, -⟩ := h.canDecode_header hFits front back
      have hNodeEnd := h.canDecode_node hFits hSize
      change canDecodeNewNodeVersion _ _ = _
      simp only [canDecodeNewNodeVersion, hChunk, if_neg hSix, hEnd, Outcome.ok_bind, hNodeEnd]
    · rw [List.append_assoc, List.length_append] at hSize
      have hShort : (header ++ (nodeChunks ++ back)).length < 2 ^ 64 := by
        rw [← List.append_assoc]
        omega
      obtain ⟨hCan, hText, node, hDecode, hSame⟩ := h.decode hFits hShort
      refine ⟨⟨v.priorVersion, v.labelRule, node⟩, ?_, rfl, rfl, hSame⟩
      rw [List.append_assoc, List.drop_left, List.append_assoc, h.length_eq hFits]
      change decodeNewNodeVersion _ = _
      simp only [decodeNewNodeVersion, hCan, Outcome.ok_bind, hText, readPriorVersion_text, hFrom, hDecode,
        ne_eq, not_true_eq_false, if_false, Outcome.pure_eq_ok]
  · intro chunks back count b hChunks hSize hDecode hSame
    obtain rfl := Except.ok.inj (hEncode.symm.trans hChunks)
    by_contra hLong
    have hBound := length_newNodeVersionText_le v
    rw [List.append_assoc] at hDecode
    obtain ⟨found, hFound, hDecode⟩ := Outcome.bind_eq_ok.mp hDecode
    cases found with
    | none => cases hDecode
    | some found =>
        simp only at hDecode
        split_ifs at hDecode with hOne
        · cases hDecode
        · obtain ⟨⟨used, part⟩, hPart, hDecode⟩ := Outcome.bind_eq_ok.mp hDecode
          obtain ⟨⟨version, stream⟩, hVersion, hDecode⟩ := Outcome.bind_eq_ok.mp hDecode
          obtain ⟨label, hLabelPart, hDecode⟩ := Outcome.bind_eq_ok.mp hDecode
          obtain ⟨⟨usedNode, node⟩, -, hDecode⟩ := Outcome.bind_eq_ok.mp hDecode
          obtain ⟨-, rfl⟩ := Prod.mk.inj (Except.ok.inj hDecode)
          have hShort := h.decode_long (Nat.not_le.mp hLong) (by omega) hFound (not_not.mp hOne) hPart
          have hLabelShort : label.length ≤ part.length := length_of_labelFrom hLabelPart
          have hSameLabel : label.length = v.labelRule.length := congrArg List.length hSame.labelRule
          omega

def sequentialNotificationCodec : Codec SequentialNotification where
  encode := encodeSequentialNotification requestId signal
  decode := decodeSequentialNotification
  canDecode := canDecodeSequentialNotification

/-- The same notification, up to how the property data of its node is cut. -/
structure SameSequentialNotification (a b : SequentialNotification) : Prop where
  number : a.number = b.number
  labelRule : a.labelRule = b.labelRule
  node : SameMaybeNode a.node b.node

theorem length_notificationText_le (n : SequentialNotification) :
    (notificationText n).length ≤ n.labelRule.length + 21 := by
  have hSpace : (str " ").length = 1 := rfl
  have hNumber := length_toDecimal_le n.number.toNat_lt
  simp only [notificationText, List.length_append, hSpace]
  omega

/-- A notification round-trips exactly when its header fits into one chunk. -/
theorem sequentialNotificationCodec_roundTripsWhen {n : SequentialNotification}
    (hNode : (maybeTreeNodeCodec requestId signal).RoundTrips SameMaybeNode n.node)
    (hLabel : n.labelRule.length < 2 ^ 63) :
    (sequentialNotificationCodec requestId signal).RoundTripsWhen SameSequentialNotification
      ((notificationText n).length ≤ 1186) n := by
  obtain ⟨nodeChunks, h⟩ := HeaderNode.of_roundTrips (notificationText n) hNode
  generalize encodeLongString requestId signal (notificationText n) = header at h
  have hEncode : encodeSequentialNotification requestId signal n = .ok (header ++ nodeChunks) := by
    rw [encodeSequentialNotification, h.encode_node, h.header_eq]
    rfl
  have hPos := encodeMaybeTreeNode_ne_nil requestId signal h.encode_node
  have hNumber : unsigned 10 64 (.ofStr (notificationText n)) =
      .ok (some n.number.toNat, .ofStr (str " " ++ n.labelRule)) := by
    have hRead := reads_unsigned n.number.toNat_lt [] (List.forall_mem_nil _)
      (show BlankFirst (str " " ++ n.labelRule) by rfl)
    rw [Reads, List.nil_append, ← List.append_assoc] at hRead
    exact hRead
  have hFrom : labelFrom (notificationText n)
      ((IStream.ofStr (str " " ++ n.labelRule)).tellg (notificationText n)) = .ok n.labelRule :=
    labelFrom_tellg _ n.labelRule
  constructor
  · intro hFits
    refine ⟨header ++ nodeChunks, hEncode, fun front back hSize => ⟨?_, ?_⟩⟩
    · obtain ⟨chunk, hChunk, hSix, -, hEnd⟩ := h.canDecode_header hFits front back
      have hNodeEnd := h.canDecode_node hFits hSize
      have hInside : ¬(front ++ (header ++ nodeChunks) ++ back).length ≤ front.length + 1 := by
        rw [List.length_append, List.length_append, h.length_eq hFits]
        omega
      change canDecodeSequentialNotification _ _ = _
      simp only [canDecodeSequentialNotification, hChunk, if_neg hSix, hEnd, Outcome.ok_bind, hNodeEnd,
        ge_iff_le, if_neg hInside]
    · rw [List.append_assoc, List.length_append] at hSize
      have hShort : (header ++ (nodeChunks ++ back)).length < 2 ^ 64 := by
        rw [← List.append_assoc]
        omega
      obtain ⟨hCan, hText, node, hDecode, hSame⟩ := h.decode hFits hShort
      refine ⟨⟨n.number, n.labelRule, node⟩, ?_, rfl, rfl, hSame⟩
      rw [List.append_assoc, List.drop_left, List.append_assoc, h.length_eq hFits]
      change decodeSequentialNotification _ = _
      simp only [decodeSequentialNotification, hCan, Outcome.ok_bind, hText, hNumber, hFrom, hDecode,
        ne_eq, not_true_eq_false, if_false, writtenValue, Outcome.pure_eq_ok, UInt64.ofNat_toNat]
  · intro chunks back count b hChunks hSize hDecode hSame
    obtain rfl := Except.ok.inj (hEncode.symm.trans hChunks)
    by_contra hLong
    have hBound := length_notificationText_le n
    rw [List.append_assoc] at hDecode
    obtain ⟨found, hFound, hDecode⟩ := Outcome.bind_eq_ok.mp hDecode
    cases found with
    | none => cases hDecode
    | some found =>
        simp only at hDecode
        split_ifs at hDecode with hOne
        · cases hDecode
        · obtain ⟨⟨used, part⟩, hPart, hDecode⟩ := Outcome.bind_eq_ok.mp hDecode
          obtain ⟨⟨number, stream⟩, -, hDecode⟩ := Outcome.bind_eq_ok.mp hDecode
          obtain ⟨label, hLabelPart, hDecode⟩ := Outcome.bind_eq_ok.mp hDecode
          obtain ⟨⟨usedNode, node⟩, -, hDecode⟩ := Outcome.bind_eq_ok.mp hDecode
          obtain ⟨value, -, hDecode⟩ := Outcome.bind_eq_ok.mp hDecode
          obtain ⟨-, rfl⟩ := Prod.mk.inj (Except.ok.inj hDecode)
          have hShort := h.decode_long (Nat.not_le.mp hLong) (by omega) hFound (not_not.mp hOne) hPart
          have hLabelShort : label.length ≤ part.length := length_of_labelFrom hLabelPart
          have hSameLabel : label.length = n.labelRule.length := congrArg List.length hSame.labelRule
          omega

section Count

variable {count : ℕ}

theorem toDecimal_fits (h : count < 2 ^ 64) : (toDecimal count).length ≤ maxPayload :=
  Nat.le_trans (length_toDecimal_le h) (by decide)

theorem encodeLabel_count (h : count < 2 ^ 64) :
    encodeLabel requestId signal (toDecimal count) =
      .ok [payloadSpan requestId signal (toDecimal count)] :=
  if_neg (Nat.not_lt.mpr (toDecimal_fits h))

theorem vectorSize_count (h : count < 2 ^ 64) : vectorSize (toDecimal count) = .ok (some count) := by
  rw [vectorSize, readFrom, unsigned_toDecimal_all h]
  rfl

theorem decodeLabel_count (rest : List SharedSpan) :
    decodeLabel (payloadSpan requestId signal (toDecimal count) :: rest) = .ok (1, toDecimal count) := by
  rw [decodeLabel, bytes_payloadSpan]

theorem decodeCount_count (h : count < 2 ^ 64) (what : Str) (rest : List SharedSpan) :
    decodeCount what (payloadSpan requestId signal (toDecimal count) :: rest) = .ok (1, some count) := by
  have hCan := canDecodeLabel_payloadSpan requestId signal (toDecimal_fits h)
    (show (payloadSpan requestId signal (toDecimal count) :: rest)[0]? = _ from rfl)
  simp only [decodeCount, hCan, Outcome.ok_bind, decodeLabel_count, vectorSize_count h, ne_eq,
    Nat.zero_add, not_true_eq_false, if_false, Outcome.pure_eq_ok]

theorem canDecodeCount_count (h : count < 2 ^ 64) (what : Str) {start : ℕ} {encoded : List SharedSpan}
    (hChunk : encoded[start]? = some (payloadSpan requestId signal (toDecimal count))) :
    canDecodeCount what start encoded = .ok (some (some count)) := by
  have hCan := canDecodeLabel_payloadSpan requestId signal (toDecimal_fits h) hChunk
  obtain ⟨hInside, hGet⟩ := List.getElem?_eq_some_iff.mp hChunk
  have hOne : ¬start + 1 - start ≠ 1 := by omega
  have hTake : (encoded.drop start).take 1 = [payloadSpan requestId signal (toDecimal count)] := by
    rw [List.drop_eq_getElem_cons hInside, hGet]
    rfl
  simp only [canDecodeCount, ge_iff_le, if_neg (Nat.not_le.mpr hInside), hCan, Outcome.ok_bind,
    if_neg hOne, hTake, decodeLabel_count, vectorSize_count h, Outcome.pure_eq_ok]

end Count

/-- All changes of a sub-transaction, the one of the parent first. -/
def SubTransaction.changes (sub : SubTransaction) : List NewNodeVersion := sub.parent :: sub.descendants

def subTransactionCodec : Codec SubTransaction where
  encode := encodeSubTransaction requestId signal
  decode := decodeSubTransaction
  canDecode := canDecodeSubTransaction

def transactionCodec : Codec Transaction where
  encode := encodeTransaction requestId signal
  decode := decodeTransaction
  canDecode := canDecodeTransaction

def vectorSequentialNotificationCodec : Codec (List SequentialNotification) where
  encode := encodeVectorSequentialNotification requestId signal
  decode := decodeVectorSequentialNotification
  canDecode := canDecodeVectorSequentialNotification

def SameSubTransaction (a b : SubTransaction) : Prop :=
  List.Forall₂ SameNewNodeVersion a.changes b.changes

def SameTransaction : Transaction → Transaction → Prop := List.Forall₂ SameSubTransaction

/-- Every header of a sub-transaction fits into one chunk. -/
def SubTransaction.HeadersFit (sub : SubTransaction) : Prop :=
  ∀ v ∈ sub.changes, (newNodeVersionText v).length ≤ 1186

/-- A change the codecs are asked to carry: the codec of its node round-trips, and its
label is a string. -/
structure Carried (mnode : Option TreeNode) (labelRule : Str) : Prop where
  node : (maybeTreeNodeCodec requestId signal).RoundTrips SameMaybeNode mnode
  label : labelRule.length < 2 ^ 63

theorem encodeNewNodeVersion_ne_nil {v : NewNodeVersion} {chunks : List SharedSpan}
    (h : encodeNewNodeVersion requestId signal v = .ok chunks) : chunks.length ≠ 0 := by
  obtain ⟨nodeChunks, -, h⟩ := Outcome.bind_eq_ok.mp h
  obtain rfl := Except.ok.inj h
  rw [ne_eq, List.length_eq_zero_iff, List.append_eq_nil_iff]
  exact fun hNil => encodeLongString_ne_nil requestId signal _ hNil.1

theorem encodeSubTransaction_eq {sub : SubTransaction} (hCount : sub.descendants.length < 2 ^ 64) :
    encodeSubTransaction requestId signal sub = do
      return payloadSpan requestId signal (toDecimal sub.descendants.length) ::
        (← encodeEach (encodeNewNodeVersion requestId signal) sub.changes) := by
  simp only [encodeSubTransaction, encodeLabel_count requestId signal hCount, Outcome.ok_bind,
    SubTransaction.changes, encodeEach, bind_assoc, pure_bind]
  rfl

theorem canDecodeSubTransaction_eq {sub : SubTransaction} (hCount : sub.descendants.length < 2 ^ 64) {start : ℕ}
    {encoded : List SharedSpan}
    (hChunk : encoded[start]? = some (payloadSpan requestId signal (toDecimal sub.descendants.length))) :
    canDecodeSubTransaction start encoded =
      canDecodeEach canDecodeNewNodeVersion encoded sub.changes.length (start + 1) := by
  simp only [canDecodeSubTransaction, canDecodeCount_count requestId signal hCount _ hChunk,
    Outcome.ok_bind, SubTransaction.changes, List.length_cons, canDecodeEach, writtenValue]

theorem subTransactionCodec_roundTripsWhen {sub : SubTransaction}
    (hChanges : ∀ v ∈ sub.changes, Carried requestId signal v.node v.labelRule)
    (hCount : sub.descendants.length < 2 ^ 64) :
    (subTransactionCodec requestId signal).RoundTripsWhen SameSubTransaction sub.HeadersFit sub := by
  let codec : Codec NewNodeVersion := { newNodeVersionCodec requestId signal with
    decode := consuming (str "Cannot decode NewNodeVersion") decodeNewNodeVersion }
  refine Codec.framed_roundTripsWhen codec SubTransaction.changes
    (payloadSpan requestId signal (toDecimal sub.descendants.length)) ?_ ?_ ?_ ?_ ?_
  · exact encodeSubTransaction_eq requestId signal hCount
  · intro rest stop b
    change decodeSubTransaction _ = _ ↔ _
    generalize hAll : payloadSpan requestId signal (toDecimal sub.descendants.length) :: rest = encoded
    have hCountRead := decodeCount_count requestId signal hCount (str "Cannot decode SubTransaction") rest
    have hBegin : ¬encoded.length < 1 := by simp [← hAll]
    rw [hAll] at hCountRead
    rw [decodeSubTransaction, hCountRead, SubTransaction.changes, List.length_cons, decodeEach,
      if_neg hBegin]
    simp only [Outcome.ok_bind, Outcome.bind_eq_ok, Outcome.pure_eq_ok, Except.ok.injEq, Prod.mk.injEq,
      Prod.exists, writtenValue]
    constructor
    · rintro ⟨used, parent, hParent, last, descendants, hEach, rfl, rfl⟩
      rw [Nat.add_comm] at hEach
      exact ⟨used, parent, hParent, last, descendants, hEach, rfl, rfl⟩
    · rintro ⟨used, parent, hParent, last, descendants, hEach, rfl, hChangesEq⟩
      obtain ⟨hFirst, hMore⟩ := List.cons.inj hChangesEq
      rw [Nat.add_comm] at hEach
      exact ⟨used, parent, hParent, last, descendants, hEach, rfl, by rw [hFirst, hMore]⟩
  · intro l hLength
    cases l with
    | nil => cases hLength
    | cons v l => exact ⟨⟨v, l⟩, rfl⟩
  · exact fun start encoded hChunk => canDecodeSubTransaction_eq requestId signal hCount hChunk
  · intro v hv
    have hCarried := hChanges v hv
    exact (newNodeVersionCodec_roundTripsWhen requestId signal hCarried.node hCarried.label).consuming
      fun chunks h => encodeNewNodeVersion_ne_nil requestId signal h

theorem encodeSubTransaction_ne_nil {sub : SubTransaction} {chunks : List SharedSpan}
    (hCount : sub.descendants.length < 2 ^ 64)
    (h : encodeSubTransaction requestId signal sub = .ok chunks) : chunks.length ≠ 0 := by
  simp only [encodeSubTransaction, encodeLabel_count requestId signal hCount, Outcome.bind_eq_ok,
    Outcome.ok_bind, Outcome.pure_eq_ok, Except.ok.injEq] at h
  obtain ⟨parent, -, descendants, -, rfl⟩ := h
  exact Nat.succ_ne_zero _

theorem encodeTransaction_eq {transaction : Transaction} (hCount : transaction.length < 2 ^ 64) :
    encodeTransaction requestId signal transaction = do
      return payloadSpan requestId signal (toDecimal transaction.length) ::
        (← encodeEach (encodeSubTransaction requestId signal) transaction) := by
  simp only [encodeTransaction, encodeLabel_count requestId signal hCount, Outcome.ok_bind]
  rfl

theorem canDecodeTransaction_eq {transaction : Transaction} (hCount : transaction.length < 2 ^ 64) {start : ℕ}
    {encoded : List SharedSpan}
    (hChunk : encoded[start]? = some (payloadSpan requestId signal (toDecimal transaction.length))) :
    canDecodeTransaction start encoded =
      canDecodeEach canDecodeSubTransaction encoded transaction.length (start + 1) := by
  rw [canDecodeTransaction, canDecodeCount_count requestId signal hCount _ hChunk]
  rfl

theorem transactionCodec_roundTripsWhen {transaction : Transaction}
    (hChanges : ∀ sub ∈ transaction, ∀ v ∈ sub.changes, Carried requestId signal v.node v.labelRule)
    (hCounts : ∀ sub ∈ transaction, sub.descendants.length < 2 ^ 64)
    (hCount : transaction.length < 2 ^ 64) :
    (transactionCodec requestId signal).RoundTripsWhen SameTransaction
      (∀ sub ∈ transaction, sub.HeadersFit) transaction := by
  let codec : Codec SubTransaction := { subTransactionCodec requestId signal with
    decode := consuming (str "Cannot decode SubTransaction") decodeSubTransaction }
  refine Codec.framed_roundTripsWhen codec id
    (payloadSpan requestId signal (toDecimal transaction.length)) ?_ ?_ ?_ ?_ ?_
  · exact encodeTransaction_eq requestId signal hCount
  · intro rest stop b
    change decodeTransaction _ = _ ↔ _
    rw [decodeTransaction, decodeCount_count requestId signal hCount]
    rfl
  · exact fun l _ => ⟨l, rfl⟩
  · exact fun start encoded hChunk => canDecodeTransaction_eq requestId signal hCount hChunk
  · intro sub hSub
    exact (subTransactionCodec_roundTripsWhen requestId signal (hChanges sub hSub)
      (hCounts sub hSub)).consuming
        fun chunks h => encodeSubTransaction_ne_nil requestId signal (hCounts sub hSub) h

theorem encodeVectorSequentialNotification_eq {notifications : List SequentialNotification}
    (hCount : notifications.length < 2 ^ 64) :
    encodeVectorSequentialNotification requestId signal notifications = do
      return payloadSpan requestId signal (toDecimal notifications.length) ::
        (← encodeEach (encodeSequentialNotification requestId signal) notifications) := by
  simp only [encodeVectorSequentialNotification, encodeLabel_count requestId signal hCount, Outcome.ok_bind]
  rfl

theorem canDecodeVectorSequentialNotification_eq {notifications : List SequentialNotification}
    (hCount : notifications.length < 2 ^ 64) {start : ℕ} {encoded : List SharedSpan}
    (hChunk : encoded[start]? = some (payloadSpan requestId signal (toDecimal notifications.length))) :
    canDecodeVectorSequentialNotification start encoded =
      canDecodeEach canDecodeSequentialNotification encoded notifications.length (start + 1) := by
  obtain ⟨hInside, hGet⟩ := List.getElem?_eq_some_iff.mp hChunk
  have hCan := canDecodeLabel_payloadSpan requestId signal (toDecimal_fits hCount) hChunk
  have hLabel : decodeLabel (encoded.drop start) = .ok (1, toDecimal notifications.length) := by
    rw [List.drop_eq_getElem_cons hInside, hGet]
    exact decodeLabel_count requestId signal _
  simp only [canDecodeVectorSequentialNotification, ge_iff_le, if_neg (Nat.not_le.mpr hInside), hCan,
    Outcome.ok_bind, Nat.add_sub_cancel, hLabel, vectorSize_count hCount, writtenValue,
    Nat.add_comm 1 start]

theorem vectorSequentialNotificationCodec_roundTripsWhen {notifications : List SequentialNotification}
    (hNotifications : ∀ n ∈ notifications, Carried requestId signal n.node n.labelRule)
    (hCount : notifications.length < 2 ^ 64) :
    (vectorSequentialNotificationCodec requestId signal).RoundTripsWhen
      (List.Forall₂ SameSequentialNotification)
      (∀ n ∈ notifications, (notificationText n).length ≤ 1186) notifications := by
  refine Codec.framed_roundTripsWhen (sequentialNotificationCodec requestId signal) id
    (payloadSpan requestId signal (toDecimal notifications.length)) ?_ ?_ ?_ ?_ ?_
  · exact encodeVectorSequentialNotification_eq requestId signal hCount
  · intro rest stop b
    change decodeVectorSequentialNotification _ = _ ↔ _
    rw [decodeVectorSequentialNotification, decodeLabel_count]
    simp only [Outcome.ok_bind, vectorSize_count hCount, writtenValue]
    rfl
  · exact fun l _ => ⟨l, rfl⟩
  · exact fun start encoded hChunk => canDecodeVectorSequentialNotification_eq requestId signal hCount hChunk
  · intro n hn
    have hCarried := hNotifications n hn
    exact sequentialNotificationCodec_roundTripsWhen requestId signal hCarried.node hCarried.label

end

/-- A value of one of the layered codecs. -/
inductive LayeredValue
  | newNodeVersion (v : NewNodeVersion)
  | subTransaction (sub : SubTransaction)
  | transaction (transaction : Transaction)
  | notifications (notifications : List SequentialNotification)

namespace LayeredValue

/-- The header texts in front of the nodes of a value. -/
def headers : LayeredValue → List Str
  | newNodeVersion v => [newNodeVersionText v]
  | subTransaction sub => sub.changes.map newNodeVersionText
  | transaction t => (t.flatMap SubTransaction.changes).map newNodeVersionText
  | notifications l => l.map notificationText

def encode (requestId : UInt16) (signal : UInt8) : LayeredValue → Outcome (List SharedSpan)
  | newNodeVersion v => encodeNewNodeVersion requestId signal v
  | subTransaction sub => encodeSubTransaction requestId signal sub
  | transaction t => encodeTransaction requestId signal t
  | notifications l => encodeVectorSequentialNotification requestId signal l

/-- Decoding gives the value back and takes exactly its chunks, and the matching
`can_decode` finds their end, wherever the encoding stands. -/
def RoundTrips (requestId : UInt16) (signal : UInt8) : LayeredValue → Prop
  | newNodeVersion v => (newNodeVersionCodec requestId signal).RoundTrips SameNewNodeVersion v
  | subTransaction sub => (subTransactionCodec requestId signal).RoundTrips SameSubTransaction sub
  | transaction t => (transactionCodec requestId signal).RoundTrips SameTransaction t
  | notifications l => (vectorSequentialNotificationCodec requestId signal).RoundTrips
      (List.Forall₂ SameSequentialNotification) l

/-- The codec of every node round-trips; the labels are strings and the vectors have a
length that is a `size_t`. -/
def Valid (requestId : UInt16) (signal : UInt8) : LayeredValue → Prop
  | newNodeVersion v => Carried requestId signal v.node v.labelRule
  | subTransaction sub => sub.descendants.length < 2 ^ 64 ∧
      ∀ v ∈ sub.changes, Carried requestId signal v.node v.labelRule
  | transaction t => t.length < 2 ^ 64 ∧ (∀ sub ∈ t, sub.descendants.length < 2 ^ 64) ∧
      ∀ sub ∈ t, ∀ v ∈ sub.changes, Carried requestId signal v.node v.labelRule
  | notifications l => l.length < 2 ^ 64 ∧ ∀ n ∈ l, Carried requestId signal n.node n.labelRule

/-- The codecs of changes, transactions and notifications round-trip exactly for the
values whose header texts fit into one chunk each. -/
theorem roundTrips_iff (requestId : UInt16) (signal : UInt8) (value : LayeredValue)
    (chunks : List SharedSpan) (hValid : value.Valid requestId signal)
    (hEncode : value.encode requestId signal = .ok chunks) (hSize : chunks.length < 2 ^ 64) :
    value.RoundTrips requestId signal ↔ ∀ header ∈ value.headers, header.length ≤ 1186 := by
  cases value with
  | newNodeVersion v =>
      rw [headers, List.forall_mem_singleton]
      exact (newNodeVersionCodec_roundTripsWhen requestId signal hValid.node hValid.label).iff hEncode hSize
  | subTransaction sub =>
      obtain ⟨hCount, hChanges⟩ := hValid
      rw [headers, List.forall_mem_map]
      exact (subTransactionCodec_roundTripsWhen requestId signal hChanges hCount).iff hEncode hSize
  | transaction t =>
      obtain ⟨hCount, hCounts, hChanges⟩ := hValid
      rw [headers, List.forall_mem_map, List.forall_mem_flatMap]
      exact (transactionCodec_roundTripsWhen requestId signal hChanges hCounts hCount).iff hEncode hSize
  | notifications l =>
      obtain ⟨hCount, hNotifications⟩ := hValid
      rw [headers, List.forall_mem_map]
      exact (vectorSequentialNotificationCodec_roundTripsWhen requestId signal hNotifications hCount).iff
        hEncode hSize

/-- The deletion of the node `A`. -/
theorem roundTrips_iff_deletion :
    (newNodeVersion ⟨none, str "A", none⟩).RoundTrips 1 0x23 ↔
      ∀ header ∈ (newNodeVersion ⟨none, str "A", none⟩).headers, header.length ≤ 1186 :=
  roundTrips_iff 1 0x23 (newNodeVersion ⟨none, str "A", none⟩) _
    ⟨maybeTreeNodeCodec_roundTrips_none 1 0x23, by decide +kernel⟩ rfl (by decide +kernel)

/-- The deletion of a node whose label has 1179 bytes: the header takes two chunks. -/
theorem not_roundTrips_longLabel :
    ¬(newNodeVersion ⟨none, List.replicate 1179 (chr 'x'), none⟩).RoundTrips 1 0x23 := by
  intro h
  have hLabel : (List.replicate 1179 (chr 'x')).length < 2 ^ 63 := by
    rw [List.length_replicate]
    decide
  have hHeader : (newNodeVersionText ⟨none, List.replicate 1179 (chr 'x'), none⟩).length = 1187 := by
    decide +kernel
  have hWhen := newNodeVersionCodec_roundTripsWhen 1 0x23
    (v := ⟨none, List.replicate 1179 (chr 'x'), none⟩) (maybeTreeNodeCodec_roundTrips_none 1 0x23) hLabel
  have hChunks : (encodeLongString 1 0x23
      (newNodeVersionText ⟨none, List.replicate 1179 (chr 'x'), none⟩) ++
        (encodeLongString 1 0x23 (str "Nothing") ++ [])).length < 2 ^ 64 := by
    rw [List.length_append, List.append_nil, length_encodeLongString, length_encodeLongString, hHeader]
    decide +kernel
  have hFits := (hWhen.iff rfl hChunks).mp h
  rw [hHeader] at hFits
  revert hFits
  decide

end LayeredValue

end Wwatp
