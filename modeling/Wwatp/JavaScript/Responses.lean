import Wwatp.JavaScript.Framing
import Wwatp.Message.WireLegal

/-! Responses of the C++ server in the JavaScript client, which looks after every chunk whether a response is
complete. -/
namespace Wwatp

open Cxx

/-- A response of the server. -/
def MessageCall.isResponse (call : MessageCall) : Bool := call.signal % 2 = 0

namespace JavaScript

/-- `chunkFromWire`: the chunk at the front of some bytes and how many it takes. -/
def chunkFromWire : List UInt8 → Option (SpanChunk × ℕ)
  | 0 :: _ => some (⟨.noChunk, []⟩, 1)
  | 1 :: signal :: id₀ :: id₁ :: _ => some (⟨.signal ⟨.ofNat (leValue [id₀, id₁]), signal⟩, []⟩, 4)
  | 2 :: signal :: id₀ :: id₁ :: len₀ :: len₁ :: rest =>
    let len := leValue [len₀, len₁]
    if rest.length < len then none
    else some (.ofPayload (.ofNat (leValue [id₀, id₁])) signal (rest.take len), 6 + len)
  | _ => none

/-- `chunk.signal`, which throws for a chunk without a header. -/
def SpanChunk.signal (chunk : SpanChunk) : Option UInt8 :=
  match chunk.header with
  | .noChunk => none
  | .signal h => some h.signal
  | .payload h => some h.signal

/-- What an `HTTP3TreeMessage` has of its response. -/
structure ReceivedResponse where
  signal : UInt8 := 0
  responseChunks : List SpanChunk := []
  responseComplete : Bool := false

/-- The cases of `_responseDecodableEndIndex`. -/
def responseScan (signal : UInt8) : Option (Scan SpanChunk) :=
  match signal with
  | 0x08 => some canDecodeChunksMaybeTreeNode
  | 0x0E | 0x10 | 0x18 => some canDecodeChunksVectorTreeNode
  | 0x22 => some canDecodeChunksVectorSequentialNotification
  | 0x16 | 0x12 | 0x14 | 0x1A | 0x1C | 0x1E | 0x20 | 0x0A => some canDecodeChunksLabel
  | _ => none

namespace ReceivedResponse

def responseDecodableEndIndex (m : ReceivedResponse) : Option ℕ := do
  (← responseScan m.signal) 0 m.responseChunks

def pushResponseChunk (m : ReceivedResponse) (chunk : SpanChunk) : ReceivedResponse :=
  let m := { m with signal := chunk.signal.getD m.signal, responseChunks := m.responseChunks ++ [chunk] }
  match m.responseDecodableEndIndex with
  | some stop => if stop ≤ m.responseChunks.length then { m with responseComplete := true } else m
  | none => m

def pushResponseChunks (m : ReceivedResponse) (chunks : List SpanChunk) : ReceivedResponse :=
  chunks.foldl pushResponseChunk m

end ReceivedResponse

/-- The chunks that `pushResponseBytes` makes of the spans of a response, one of each. -/
def Arrives (spans : List SharedSpan) (chunks : List SpanChunk) : Prop :=
  spans.map (fun span => (chunkFromWire (wireBytes span)).map Prod.fst) = chunks.map some

/-- A heartbeat or another signal of the transport. -/
def SpanChunk.isControl (chunk : SpanChunk) : Prop := ∃ h, chunk.header = .signal h ∧ h.signal < 0x07

/-- Some chunks that are pushed one after the other are the last of a response: before the last one the response is not
complete, and with it, it is, under its own signal. -/
structure CompletesWith (signal : UInt8) (front : List SpanChunk) (last : SpanChunk) : Prop where
  before : (ReceivedResponse.pushResponseChunks {} front).responseComplete = false
  complete : (ReceivedResponse.pushResponseChunks {} (front ++ [last])).responseComplete = true
  signal_eq : (ReceivedResponse.pushResponseChunks {} (front ++ [last])).signal = signal

section Arrivals

variable {requestId : UInt16} {signal : UInt8}

/-- Payload chunks of a message that has a signal. -/
def CarriesSignal (signal : UInt8) (chunks : List SpanChunk) : Prop :=
  ∀ chunk ∈ chunks, chunk.hasPayloadHeader ∧ chunk.signal = some signal

theorem Arrives.append {front back : List SharedSpan} {first second : List SpanChunk} (hFront : Arrives front first)
    (hBack : Arrives back second) : Arrives (front ++ back) (first ++ second) := by
  rw [Arrives, List.map_append, List.map_append, hFront, hBack]

theorem Arrives.unique {spans : List SharedSpan} {chunks other : List SpanChunk} (h : Arrives spans chunks)
    (hOther : Arrives spans other) : chunks = other :=
  List.map_injective_iff.mpr (Option.some_injective _) (h.symm.trans hOther)

theorem CarriesSignal.append {first second : List SpanChunk} (hFirst : CarriesSignal signal first) (hSecond : CarriesSignal signal second) :
    CarriesSignal signal (first ++ second) := List.forall_mem_append.mpr ⟨hFirst, hSecond⟩

theorem chunkFromWire_payload (len : UInt16) {rest : List UInt8} (hRest : len.toNat ≤ rest.length) :
    chunkFromWire ((ChunkHeader.payload ⟨requestId, signal, len⟩).toBytes ++ rest) =
      some (.ofPayload requestId signal (rest.take len.toNat), 6 + len.toNat) := by
  obtain ⟨id₀, id₁, hId⟩ : ∃ id₀ id₁, leBytes 2 requestId.toNat = [id₀, id₁] := ⟨_, _, rfl⟩
  obtain ⟨len₀, len₁, hLen⟩ : ∃ len₀ len₁, leBytes 2 len.toNat = [len₀, len₁] := ⟨_, _, rfl⟩
  have hIdValue : leValue [id₀, id₁] = requestId.toNat := hId ▸ leValue_leBytes requestId.toNat_lt
  have hLenValue : leValue [len₀, len₁] = len.toNat := hLen ▸ leValue_leBytes len.toNat_lt
  rw [ChunkHeader.toBytes, hId, hLen]
  show (if rest.length < leValue [len₀, len₁] then none else _) = _
  rw [hLenValue, if_neg (Nat.not_lt.mpr hRest), hIdValue, UInt16.ofNat_toNat]
  rfl

/-- A chunk of a span arrives, with what the header counts. -/
theorem chunkFromWire_ofSignal {data : List UInt8} (hData : data.length < chunkSize) :
    ∃ payload read, chunkFromWire (wireBytes (.ofSignal (.payload ⟨requestId, signal, .ofNat data.length⟩) data)) =
      some (.ofPayload requestId signal payload, read) ∧ (data.length ≤ maxPayload → payload = data) := by
  have hLength : (UInt16.ofNat data.length).toNat = data.length :=
    UInt16.toNat_ofNat_of_lt' (hData.trans (by decide))
  have hWire : wireBytes (.ofSignal (.payload ⟨requestId, signal, .ofNat data.length⟩) data) =
      (ChunkHeader.payload ⟨requestId, signal, .ofNat data.length⟩).toBytes ++ (data.take maxPayload ++
        List.flatMap Chunk.data (((data.drop maxPayload).blocks (chunkSize - 1)).map (Chunk.ofHeader .noChunk))) := by
    rw [wireBytes, SharedSpan.ofSignal, List.flatMap_cons, ← List.append_assoc]
    rfl
  rw [hWire]
  by_cases hFits : data.length ≤ maxPayload
  · rw [List.take_of_length_le hFits, chunkFromWire_payload _ (by rw [hLength]; simp), hLength, List.take_left]
    exact ⟨data, _, rfl, fun _ => rfl⟩
  · have hNe : data.drop maxPayload ≠ [] := by
      rw [ne_eq, List.drop_eq_nil_iff]
      exact hFits
    have hRest : data.length ≤ (data.take maxPayload ++ List.flatMap Chunk.data
        (((data.drop maxPayload).blocks (chunkSize - 1)).map (Chunk.ofHeader .noChunk))).length := by
      rw [List.blocks_of_ne_nil (by decide) hNe, List.map_cons, List.flatMap_cons]
      simp only [Chunk.ofHeader, ChunkHeader.toBytes, ChunkHeader.size, List.length_append, List.length_take,
        List.length_drop, List.length_cons, chunkSize, maxPayload] at hData hFits ⊢
      omega
    rw [chunkFromWire_payload _ (by rwa [hLength])]
    exact ⟨_, _, rfl, fun h => absurd h hFits⟩

theorem arrives_payloadSpan {payload : List UInt8} (h : payload.length ≤ maxPayload) :
    Arrives [payloadSpan requestId signal payload] [.ofPayload requestId signal payload] := by
  rw [maxPayload] at h
  obtain ⟨data, read, hRead, hData⟩ := @chunkFromWire_ofSignal requestId signal payload
    (by rw [chunkSize]; omega)
  rw [hData h] at hRead
  rw [Arrives, List.map_singleton, payloadSpan, hRead]
  rfl

/-- Spans that arrive as the chunks of one value. -/
def ArrivesFramed (scan : Scan SpanChunk) (signal : UInt8) (spans : List SharedSpan) : Prop :=
  ∃ chunks, Arrives spans chunks ∧ CarriesSignal signal chunks ∧ Frames scan chunks

theorem carriesSignal_ofPayload (payload : List UInt8) : CarriesSignal signal [.ofPayload requestId signal payload] := by
  simp [CarriesSignal, SpanChunk.ofPayload, SpanChunk.hasPayloadHeader, SpanChunk.signal]

theorem arrives_encodeLabel {label : Str} {spans : List SharedSpan} (h : encodeLabel requestId signal label = .ok spans) :
    Arrives spans [.ofPayload requestId signal label] := by
  rw [encodeLabel] at h
  split_ifs at h with hLong
  obtain rfl := Except.ok.inj h
  exact arrives_payloadSpan (Nat.not_lt.mp hLong)

theorem frames_label (label : Str) : Frames canDecodeChunksLabel [.ofPayload requestId signal label] where
  whole front back := by
    rw [canDecodeChunksLabel]
    simp [SpanChunk.ofPayload, SpanChunk.hasPayloadHeader]
  part front k hk := by
    obtain rfl : k = 0 := Nat.lt_one_iff.mp hk
    rw [List.take_zero, List.append_nil, canDecodeChunksLabel_end]

theorem arrives_encodeLongString {s : Str} (h : s.length < 2 ^ 32) :
    Arrives (encodeLongString requestId signal s) (countedChunks requestId signal s) := by
  rw [encodeLongString_eq, countedChunks, flattenWithSignal_counted requestId signal h, Arrives, List.map_map, List.map_map]
  apply List.map_congr_left
  intro block hBlock
  have hArrives := @arrives_payloadSpan requestId signal _
    (List.length_of_mem_blocks (by decide) hBlock).2
  exact (List.cons.inj hArrives).1

theorem carriesSignal_countedChunks (bytes : List UInt8) : CarriesSignal signal (countedChunks requestId signal bytes) := by
  intro chunk hChunk
  rw [countedChunks, flattenWithSignal] at hChunk
  split_ifs at hChunk
  · obtain rfl := List.mem_singleton.mp hChunk
    exact ⟨rfl, rfl⟩
  · obtain ⟨block, -, rfl⟩ := List.mem_map.mp hChunk
    exact ⟨rfl, rfl⟩

/-- The property data arrives in as many chunks as it has. -/
theorem arrives_propertyChunks (mnode : Option TreeNode) :
    ∃ contents, Arrives (propertyChunks requestId signal mnode) contents ∧ CarriesSignal signal contents := by
  cases mnode with
  | none => exact ⟨[], rfl, nofun⟩
  | some node =>
      rw [propertyChunks, SharedSpan.flattenWithSignal]
      induction node.propertyData.chunks with
      | nil => exact ⟨[], rfl, nofun⟩
      | cons c rest ih =>
          obtain ⟨contents, hContents, hCarries⟩ := ih
          obtain ⟨payload, read, hRead, -⟩ := @chunkFromWire_ofSignal requestId signal c.body
            (by rw [c.body_length]; exact c.size_lt)
          rw [c.body_length] at hRead
          have hFirst : Arrives [SharedSpan.ofSignal (.payload ⟨requestId, signal, .ofNat c.size⟩) c.body]
              [.ofPayload requestId signal payload] := by
            rw [Arrives, List.map_singleton, hRead]
            rfl
          exact ⟨_, hFirst.append hContents, (carriesSignal_ofPayload payload).append hCarries⟩

theorem Arrives.length_eq {spans : List SharedSpan} {chunks : List SpanChunk} (h : Arrives spans chunks) :
    chunks.length = spans.length := by
  have hLength := congrArg List.length h
  rw [List.length_map, List.length_map] at hLength
  exact hLength.symm

end Arrivals

section Encoders

variable {requestId : UInt16} {signal : UInt8} {spans : List SharedSpan}

/-- A node whose text and whose number of chunks are not too long for the client. -/
def NodeFits (mnode : Option TreeNode) : Prop :=
  (∀ text, maybeTreeNodeText mnode = .ok text → text.length ≤ maxStringLength) ∧
    ∀ node ∈ mnode, node.propertyData.chunks.length < 2 ^ 32

theorem arrives_encodeMaybeTreeNode {mnode : Option TreeNode} (hFits : NodeFits mnode)
    (h : encodeMaybeTreeNode requestId signal mnode = .ok spans) :
    ArrivesFramed canDecodeChunksMaybeTreeNode signal spans := by
  obtain ⟨text, hText, h⟩ := Outcome.bind_eq_ok.mp h
  obtain rfl := Except.ok.inj h
  have hLength : text.length < 2 ^ 32 := by
    have hMax := hFits.1 text hText
    rw [maxStringLength] at hMax
    omega
  obtain ⟨contents, hContents, hCarries⟩ := @arrives_propertyChunks requestId signal mnode
  refine ⟨countedChunks requestId signal text ++ contents, (arrives_encodeLongString hLength).append hContents,
    (carriesSignal_countedChunks text).append hCarries, ?_⟩
  cases mnode with
  | none =>
      obtain rfl := Except.ok.inj hText
      obtain rfl : contents = [] := List.eq_nil_of_length_eq_zero hContents.length_eq
      rw [List.append_nil]
      exact frames_nothing
  | some node =>
      obtain ⟨nodeText, -, hText⟩ := Outcome.bind_eq_ok.mp hText
      obtain rfl := Except.ok.inj hText
      have hCount : contents.length = node.propertyData.chunks.length := by
        rw [hContents.length_eq, propertyChunks, SharedSpan.length_flattenWithSignal]
      rw [List.append_assoc (str "Just "), ← hCount] at hLength ⊢
      exact frames_node hLength (by rw [hCount]; exact hFits.2 node rfl)

/-- Elements of a vector, one behind the other. -/
theorem arrives_encodeEach {α : Type} {encode : α → Outcome (List SharedSpan)} {scan : Scan SpanChunk} {l : List α}
    (hEach : ∀ a ∈ l, ∀ spans, encode a = .ok spans → ArrivesFramed scan signal spans) (h : encodeEach encode l = .ok spans) :
    ∃ lists : List (List SpanChunk), lists.length = l.length ∧ (∀ chunks ∈ lists, Frames scan chunks) ∧
      Arrives spans lists.flatten ∧ CarriesSignal signal lists.flatten := by
  induction l generalizing spans with
  | nil =>
      obtain rfl := Except.ok.inj h
      exact ⟨[], rfl, nofun, rfl, nofun⟩
  | cons a rest ih =>
      obtain ⟨hFirst, hRest⟩ := List.forall_mem_cons.mp hEach
      obtain ⟨first, hEncoded, h⟩ := Outcome.bind_eq_ok.mp h
      obtain ⟨more, hMore, h⟩ := Outcome.bind_eq_ok.mp h
      obtain rfl := Except.ok.inj h
      obtain ⟨chunks, hArrives, hCarries, hFrames⟩ := hFirst first hEncoded
      obtain ⟨lists, hLength, hLists, hMoreArrives, hMoreCarries⟩ := ih hRest hMore
      exact ⟨chunks :: lists, by rw [List.length_cons, List.length_cons, hLength], List.forall_mem_cons.mpr ⟨hFrames, hLists⟩,
        hArrives.append hMoreArrives, hCarries.append hMoreCarries⟩

theorem arrives_counted {α : Type} {encode : α → Outcome (List SharedSpan)} {scan : Scan SpanChunk} {l : List α}
    {label elements : List SharedSpan} (hMany : l.length < 2 ^ 32)
    (hEach : ∀ a ∈ l, ∀ spans, encode a = .ok spans → ArrivesFramed scan signal spans)
    (hLabel : encodeLabel requestId signal (toDecimal l.length) = .ok label) (hElements : encodeEach encode l = .ok elements) :
    ArrivesFramed (canDecodeCounted scan) signal (label ++ elements) := by
  obtain ⟨lists, hLength, hLists, hArrives, hCarries⟩ := arrives_encodeEach hEach hElements
  refine ⟨_, (arrives_encodeLabel hLabel).append hArrives, (carriesSignal_ofPayload _).append hCarries, ?_⟩
  refine frames_of_count hMany ?_
  rw [← hLength]
  exact Frames.times hLists

theorem arrives_encodeSequentialNotification {n : SequentialNotification}
    (hText : (notificationText n).length ≤ maxStringLength) (hFits : NodeFits n.node)
    (h : encodeSequentialNotification requestId signal n = .ok spans) :
    ArrivesFramed canDecodeChunksSequentialNotification signal spans := by
  rw [maxStringLength] at hText
  obtain ⟨maybeTree, hTree, h⟩ := Outcome.bind_eq_ok.mp h
  obtain rfl := Except.ok.inj h
  obtain ⟨chunks, hArrives, hCarries, hFrames⟩ := arrives_encodeMaybeTreeNode hFits hTree
  exact ⟨_, (arrives_encodeLongString (by omega)).append hArrives, (carriesSignal_countedChunks _).append hCarries,
    (frames_counted (by omega)).bind hFrames⟩

/-- Every string of a response is one for the client, and every vector an array. -/
def ResponseFits : MessageCall → Prop
  | .getNodeResponse node => NodeFits node
  | .getPageTreeResponse nodes | .getQueryNodesResponse nodes | .getFullTreeResponse nodes =>
      nodes.length < 2 ^ 32 ∧ ∀ node ∈ nodes, NodeFits (some node)
  | .getJournalResponse notifications => notifications.length < 2 ^ 32 ∧
      ∀ n ∈ notifications, (notificationText n).length ≤ maxStringLength ∧ NodeFits n.node
  | _ => True

theorem arrives_label {label : Str} (h : encodeLabel requestId signal label = .ok spans) :
    ArrivesFramed canDecodeChunksLabel signal spans :=
  ⟨_, arrives_encodeLabel h, carriesSignal_ofPayload label, frames_label label⟩

theorem arrives_vectorTreeNode {nodes : List TreeNode}
    (hFits : nodes.length < 2 ^ 32 ∧ ∀ node ∈ nodes, NodeFits (some node))
    (h : encodeVectorTreeNode requestId signal nodes = .ok spans) :
    ArrivesFramed canDecodeChunksVectorTreeNode signal spans := by
  obtain ⟨label, hLabel, h⟩ := Outcome.bind_eq_ok.mp h
  obtain ⟨elements, hElements, h⟩ := Outcome.bind_eq_ok.mp h
  obtain rfl := Except.ok.inj h
  exact arrives_counted hFits.1 (fun node hNode _ hSpans => arrives_encodeMaybeTreeNode (hFits.2 node hNode) hSpans)
    hLabel hElements

theorem arrives_vectorSequentialNotification {notifications : List SequentialNotification}
    (hFits : notifications.length < 2 ^ 32 ∧
      ∀ n ∈ notifications, (notificationText n).length ≤ maxStringLength ∧ NodeFits n.node)
    (h : encodeVectorSequentialNotification requestId signal notifications = .ok spans) :
    ArrivesFramed canDecodeChunksVectorSequentialNotification signal spans := by
  obtain ⟨label, hLabel, h⟩ := Outcome.bind_eq_ok.mp h
  obtain ⟨elements, hElements, h⟩ := Outcome.bind_eq_ok.mp h
  obtain rfl := Except.ok.inj h
  refine arrives_counted hFits.1 (fun n hn _ hSpans => ?_) hLabel hElements
  exact arrives_encodeSequentialNotification (hFits.2 n hn).1 (hFits.2 n hn).2 hSpans

/-- The answer to a deletion, which `_responseDecodableEndIndex` does not know. -/
def isDeletion (response : MessageCall) : Bool := response.signal = 0x0C

/-- A response arrives in chunks that are framed for the scan that the client chooses by its signal. -/
theorem arrives_response {response : MessageCall} (hResponse : response.isResponse) (hFits : ResponseFits response)
    (hDeletion : isDeletion response = false) (h : response.encode requestId = .ok spans) :
    ∃ scan, responseScan response.signal = some scan ∧ ArrivesFramed scan response.signal spans := by
  cases response with
  | getNodeResponse node =>
      obtain ⟨first, hFirst, h⟩ := Outcome.bind_eq_ok.mp h
      obtain rfl := Except.ok.inj h
      rw [List.append_nil]
      exact ⟨_, rfl, arrives_encodeMaybeTreeNode hFits hFirst⟩
  | getPageTreeResponse nodes | getQueryNodesResponse nodes | getFullTreeResponse nodes =>
      obtain ⟨first, hFirst, h⟩ := Outcome.bind_eq_ok.mp h
      obtain rfl := Except.ok.inj h
      rw [List.append_nil]
      exact ⟨_, rfl, arrives_vectorTreeNode hFits hFirst⟩
  | getJournalResponse notifications =>
      obtain ⟨first, hFirst, h⟩ := Outcome.bind_eq_ok.mp h
      obtain rfl := Except.ok.inj h
      rw [List.append_nil]
      exact ⟨_, rfl, arrives_vectorSequentialNotification hFits hFirst⟩
  | upsertNodeResponse | openTransactionLayerResponse | closeTransactionLayersResponse | applyTransactionResponse
  | registerNodeListenerResponse | deregisterNodeListenerResponse | notifyListenersResponse | processNotificationResponse =>
      obtain ⟨first, hFirst, h⟩ := Outcome.bind_eq_ok.mp h
      obtain rfl := Except.ok.inj h
      rw [List.append_nil]
      exact ⟨_, rfl, arrives_label hFirst⟩
  | deleteNodeResponse => exact absurd hDeletion (by simp [isDeletion, MessageCall.signal])
  | _ => exact absurd hResponse (by simp [MessageCall.isResponse, MessageCall.signal])

end Encoders

namespace ReceivedResponse

variable {m : ReceivedResponse} {signal : UInt8} {scan : Scan SpanChunk} {chunks : List SpanChunk}

@[simp] theorem pushResponseChunks_concat (m : ReceivedResponse) (chunks : List SpanChunk) (chunk : SpanChunk) :
    m.pushResponseChunks (chunks ++ [chunk]) = (m.pushResponseChunks chunks).pushResponseChunk chunk :=
  List.foldl_concat ..

@[simp] theorem responseChunks_pushResponseChunk (m : ReceivedResponse) (chunk : SpanChunk) :
    (m.pushResponseChunk chunk).responseChunks = m.responseChunks ++ [chunk] := by
  simp only [pushResponseChunk]
  split <;> [split_ifs; skip] <;> rfl

@[simp] theorem signal_pushResponseChunk (m : ReceivedResponse) (chunk : SpanChunk) :
    (m.pushResponseChunk chunk).signal = chunk.signal.getD m.signal := by
  simp only [pushResponseChunk]
  split <;> [split_ifs; skip] <;> rfl

@[simp] theorem responseChunks_pushResponseChunks (chunks : List SpanChunk) :
    (pushResponseChunks {} chunks).responseChunks = chunks := by
  induction chunks using List.reverseRecOn with
  | nil => rfl
  | append_singleton front chunk ih => rw [pushResponseChunks_concat, responseChunks_pushResponseChunk, ih]

/-- A chunk completes a response only if the scan for its signal finds an end. -/
theorem pushResponseChunk_of_none {chunk : SpanChunk} (hIncomplete : m.responseComplete = false)
    (hNone : ∀ scan, responseScan (chunk.signal.getD m.signal) = some scan → scan 0 (m.responseChunks ++ [chunk]) = none) :
    (m.pushResponseChunk chunk).responseComplete = false := by
  have hEnd : responseDecodableEndIndex
      { m with signal := chunk.signal.getD m.signal, responseChunks := m.responseChunks ++ [chunk] } = none := by
    rw [responseDecodableEndIndex]
    cases hScan : responseScan (chunk.signal.getD m.signal) with
    | none => rfl
    | some scan => exact hNone scan hScan
  simp only [pushResponseChunk, hEnd]
  exact hIncomplete

theorem pushResponseChunk_of_some {chunk : SpanChunk} {stop : ℕ}
    (hScan : responseScan (chunk.signal.getD m.signal) = some scan) (hSome : scan 0 (m.responseChunks ++ [chunk]) = some stop)
    (hStop : stop ≤ (m.responseChunks ++ [chunk]).length) : (m.pushResponseChunk chunk).responseComplete = true := by
  have hEnd : responseDecodableEndIndex
      { m with signal := chunk.signal.getD m.signal, responseChunks := m.responseChunks ++ [chunk] } = some stop := by
    rw [responseDecodableEndIndex, hScan]
    exact hSome
  simp only [pushResponseChunk, hEnd, if_pos hStop]

/-- As long as no scan finds an end, a response is not complete. -/
theorem incomplete_of_none (hNone : ∀ front chunk, front ++ [chunk] <+: chunks → ∀ scan,
      responseScan (chunk.signal.getD (pushResponseChunks {} front).signal) = some scan → scan 0 (front ++ [chunk]) = none) :
    (pushResponseChunks {} chunks).responseComplete = false := by
  induction chunks using List.reverseRecOn with
  | nil => rfl
  | append_singleton front chunk ih =>
      rw [pushResponseChunks_concat]
      refine pushResponseChunk_of_none
        (ih fun before next hPrefix => hNone before next (hPrefix.trans (List.prefix_append ..))) fun scan hScan => ?_
      rw [responseChunks_pushResponseChunks]
      exact hNone front chunk List.prefix_rfl scan hScan

/-- The chunks of a framed value complete a response with the last of them. -/
theorem completesWith_of_frames {front : List SpanChunk} {last : SpanChunk} (hScan : responseScan signal = some scan)
    (hFrames : Frames scan (front ++ [last])) (hCarries : CarriesSignal signal (front ++ [last])) :
    CompletesWith signal front last := by
  have hLast := hCarries last (List.mem_append_right _ List.mem_cons_self)
  have hWhole := hFrames.whole [] []
  rw [List.append_nil, List.nil_append, List.length_nil, Nat.zero_add] at hWhole
  refine ⟨incomplete_of_none fun before chunk hPrefix scan' hScan' => ?_, ?_, ?_⟩
  · obtain ⟨more, rfl⟩ := hPrefix
    rw [(hCarries chunk (by simp)).2, Option.getD_some, hScan] at hScan'
    obtain rfl := Option.some.inj hScan'
    have hPart := hFrames.part [] (before ++ [chunk]).length (by simp)
    rwa [List.nil_append, List.append_assoc, List.take_left, List.length_nil] at hPart
  · rw [pushResponseChunks_concat]
    refine pushResponseChunk_of_some (by rw [hLast.2, Option.getD_some, hScan]) ?_ (Nat.le_refl _)
    rw [responseChunks_pushResponseChunks, hWhole]
  · rw [pushResponseChunks_concat, signal_pushResponseChunk, hLast.2, Option.getD_some]

theorem scan_nil (hScan : responseScan signal = some scan) : scan 0 [] = none := by
  unfold responseScan at hScan
  split at hScan
  all_goals first
    | (obtain rfl := Option.some.inj hScan; rfl)
    | cases hScan

/-- No scan begins at a chunk without a payload. -/
theorem scan_none {chunk : SpanChunk} {rest : List SpanChunk} (hScan : responseScan signal = some scan)
    (hChunk : chunk.hasPayloadHeader = false) : scan 0 (chunk :: rest) = none := by
  have hLabel : canDecodeChunksLabel 0 (chunk :: rest) = none := by simp [canDecodeChunksLabel, hChunk]
  have hString : canDecodeChunksLongString 0 (chunk :: rest) = none := by
    simp [canDecodeChunksLongString, collect, hChunk]
  unfold responseScan at hScan
  split at hScan
  · obtain rfl := Option.some.inj hScan
    rw [canDecodeChunksMaybeTreeNode, hString]
    rfl
  all_goals first
    | (obtain rfl := Option.some.inj hScan; exact hLabel)
    | (obtain rfl := Option.some.inj hScan; exact congrArg (Option.bind · _) hLabel)
    | cases hScan

end ReceivedResponse

section Delivery

variable {response : MessageCall} {requestId : UInt16} {spans : List SharedSpan} {payloads front : List SpanChunk}
  {last : SpanChunk}

/-- The chunks up to the last one of a response, in their order and with signals of the transport between them. -/
structure DeliveredIn (response : MessageCall) (requestId : UInt16) (front : List SpanChunk) (last : SpanChunk) : Prop where
  isResponse : response.isResponse
  fits : ResponseFits response
  sent : ∃ spans, response.encode requestId = .ok spans ∧
    Arrives spans ((front ++ [last]).filter SpanChunk.hasPayloadHeader)
  ends : last.hasPayloadHeader
  controls : ∀ chunk ∈ front, chunk.hasPayloadHeader = false → chunk.isControl

theorem responseScan_of_control {signal : UInt8} {chunk : SpanChunk} (h : chunk.isControl) :
    responseScan (chunk.signal.getD signal) = none := by
  obtain ⟨header, hHeader, hLess⟩ := h
  have hSignal : chunk.signal = some header.signal := by rw [SpanChunk.signal, hHeader]
  rw [hSignal, Option.getD_some]
  generalize header.signal = s at hLess
  unfold responseScan
  split <;> first | rfl | exact absurd hLess (by decide)

/-- Every payload chunk of a response has its signal. -/
theorem carriesSignal_payloads (h : DeliveredIn response requestId front last) (hDeletion : isDeletion response) :
    CarriesSignal response.signal ((front ++ [last]).filter SpanChunk.hasPayloadHeader) := by
  obtain ⟨spans, hEncode, hArrives⟩ := h.sent
  cases response with
  | deleteNodeResponse success =>
      obtain ⟨first, hFirst, hEncode⟩ := Outcome.bind_eq_ok.mp hEncode
      obtain rfl := Except.ok.inj hEncode
      rw [List.append_nil] at hArrives
      rw [hArrives.unique (arrives_encodeLabel hFirst)]
      exact carriesSignal_ofPayload _
  | _ => exact absurd hDeletion (by simp [isDeletion, MessageCall.signal])

/-- The answer to a deletion never completes. -/
theorem incomplete_of_deletion (h : DeliveredIn response requestId front last) (hDeletion : isDeletion response) :
    (ReceivedResponse.pushResponseChunks {} (front ++ [last])).responseComplete = false := by
  have hCarries := carriesSignal_payloads h hDeletion
  have hSignal : response.signal = 0x0C := of_decide_eq_true hDeletion
  refine ReceivedResponse.incomplete_of_none fun before chunk hPrefix scan hScan => ?_
  have hMem : chunk ∈ front ++ [last] := hPrefix.subset (by simp)
  by_cases hPayload : chunk.hasPayloadHeader
  · rw [(hCarries chunk (List.mem_filter.mpr ⟨hMem, hPayload⟩)).2, Option.getD_some, hSignal] at hScan
    cases hScan
  · have hFront : chunk ∈ front := by
      rcases List.mem_append.mp hMem with hFront | hLast
      · exact hFront
      · obtain rfl := List.mem_singleton.mp hLast
        exact absurd h.ends hPayload
    rw [responseScan_of_control (h.controls chunk hFront (Bool.eq_false_iff.mpr hPayload))] at hScan
    cases hScan

/-- Behind a signal of the transport no response completes. -/
theorem incomplete_of_control {first : SpanChunk} {rest : List SpanChunk} (hFirst : first.hasPayloadHeader = false) :
    (ReceivedResponse.pushResponseChunks {} (first :: rest)).responseComplete = false := by
  refine ReceivedResponse.incomplete_of_none fun before chunk hPrefix scan hScan => ?_
  have hHead : ∃ more, before ++ [chunk] = first :: more := by
    cases before with
    | nil => exact ⟨[], by rw [(List.cons_prefix_cons.mp hPrefix).1]; rfl⟩
    | cons head tail => exact ⟨tail ++ [chunk], by rw [(List.cons_prefix_cons.mp hPrefix).1]; rfl⟩
  obtain ⟨more, hMore⟩ := hHead
  rw [hMore]
  exact ReceivedResponse.scan_none hScan hFirst

/-- A response that no signal of the transport interrupts completes with its last chunk. -/
theorem completesWith_of_undisturbed (h : DeliveredIn response requestId front last)
    (hDeletion : isDeletion response = false) (hFront : ∀ chunk ∈ front, chunk.hasPayloadHeader) :
    CompletesWith response.signal front last := by
  obtain ⟨spans, hEncode, hArrives⟩ := h.sent
  obtain ⟨scan, hScan, chunks, hChunks, hCarries, hFrames⟩ := arrives_response h.isResponse h.fits hDeletion hEncode
  have hAll : (front ++ [last]).filter SpanChunk.hasPayloadHeader = front ++ [last] :=
    List.filter_eq_self.mpr (List.forall_mem_append.mpr ⟨hFront, by simpa using h.ends⟩)
  rw [hAll] at hArrives
  obtain rfl := hArrives.unique hChunks
  exact ReceivedResponse.completesWith_of_frames hScan hFrames hCarries

/-- Every response arrives in some chunks with payloads. -/
theorem exists_delivered (hResponse : response.isResponse) (hFits : ResponseFits response)
    (hEncode : response.encode requestId = .ok spans) :
    ∃ front last, DeliveredIn response requestId front last ∧ ∀ chunk ∈ front, chunk.hasPayloadHeader := by
  obtain ⟨chunks, hArrives, hCarries, hNe⟩ : ∃ chunks, Arrives spans chunks ∧ CarriesSignal response.signal chunks ∧ chunks ≠ [] := by
    cases hDeletion : isDeletion response with
    | false =>
        obtain ⟨scan, hScan, chunks, hArrives, hCarries, hFrames⟩ := arrives_response hResponse hFits hDeletion hEncode
        refine ⟨chunks, hArrives, hCarries, ne_nil_of_frames ?_ hFrames⟩
        exact ReceivedResponse.scan_nil hScan
    | true =>
        cases response with
        | deleteNodeResponse success =>
            obtain ⟨first, hFirst, hEncode⟩ := Outcome.bind_eq_ok.mp hEncode
            obtain rfl := Except.ok.inj hEncode
            rw [List.append_nil]
            exact ⟨_, arrives_encodeLabel hFirst, carriesSignal_ofPayload _, List.cons_ne_nil _ _⟩
        | _ => exact absurd hDeletion (by simp [isDeletion, MessageCall.signal])
  obtain ⟨front, last, rfl⟩ := List.eq_nil_or_concat' chunks |>.resolve_left hNe
  have hFront : ∀ chunk ∈ front, chunk.hasPayloadHeader := fun chunk hChunk =>
    (hCarries chunk (List.mem_append_left _ hChunk)).1
  have hLast := (hCarries last (List.mem_append_right _ List.mem_cons_self)).1
  have hAll : (front ++ [last]).filter SpanChunk.hasPayloadHeader = front ++ [last] :=
    List.filter_eq_self.mpr (List.forall_mem_append.mpr ⟨hFront, by simpa using hLast⟩)
  refine ⟨front, last, ⟨hResponse, hFits, ⟨spans, hEncode, ?_⟩, hLast, fun chunk hChunk hNot => ?_⟩, hFront⟩
  · rw [hAll]
    exact hArrives
  · rw [hFront chunk hChunk] at hNot
    cases hNot

/-- A heartbeat in front of the chunks of a response. -/
theorem DeliveredIn.behind_heartbeat (h : DeliveredIn response requestId front last) :
    DeliveredIn response requestId (⟨.signal ⟨requestId, 0x02⟩, []⟩ :: front) last where
  isResponse := h.isResponse
  fits := h.fits
  sent := h.sent
  ends := h.ends
  controls := List.forall_mem_cons.mpr ⟨fun _ => ⟨_, rfl, show (0x02 : UInt8) < 7 by decide⟩, h.controls⟩

/-- A response completes with its last chunk, however its chunks arrive, just when it does not answer a deletion and
nothing interrupts it: neither the answer to a deletion completes nor any response behind a heartbeat. -/
theorem completesWith_iff (hResponse : response.isResponse) (hFits : ResponseFits response)
    (hEncode : response.encode requestId = .ok spans) (interrupted : Bool) :
    (∀ front last, DeliveredIn response requestId front last →
        (interrupted = false → ∀ chunk ∈ front, chunk.hasPayloadHeader) → CompletesWith response.signal front last) ↔
      isDeletion response = false ∧ interrupted = false := by
  constructor
  · intro h
    obtain ⟨front, last, hDelivered, hFront⟩ := exists_delivered hResponse hFits hEncode
    constructor
    · by_contra hDeletion
      have hNever := incomplete_of_deletion hDelivered (Bool.not_eq_false _ ▸ hDeletion)
      rw [(h front last hDelivered fun _ => hFront).complete] at hNever
      cases hNever
    · by_contra hInterrupted
      have hNever := @incomplete_of_control ⟨.signal ⟨requestId, 0x02⟩, []⟩ (front ++ [last]) rfl
      have hComplete := (h _ last hDelivered.behind_heartbeat fun hNot => absurd hNot hInterrupted).complete
      rw [List.cons_append, hNever] at hComplete
      cases hComplete
  · rintro ⟨hDeletion, hQuiet⟩ front last hDelivered hFront
    exact completesWith_of_undisturbed hDelivered hDeletion (hFront hQuiet)

theorem completesWith_iff_upsert :
    (∀ front last, DeliveredIn (.upsertNodeResponse true) 5 front last →
        (false = false → ∀ chunk ∈ front, chunk.hasPayloadHeader) → CompletesWith 0x0A front last) ↔
      isDeletion (.upsertNodeResponse true) = false ∧ false = false :=
  @completesWith_iff (.upsertNodeResponse true) 5 _ rfl trivial rfl false

theorem not_completesWith_deletion : ¬∀ response requestId front last, DeliveredIn response requestId front last →
    CompletesWith response.signal front last := by
  intro h
  have hDelivered : DeliveredIn (.deleteNodeResponse true) 5 [] (.ofPayload 5 0x0C (str "1")) :=
    ⟨rfl, trivial, ⟨_, rfl, arrives_payloadSpan (by decide)⟩, rfl, nofun⟩
  have hNever := incomplete_of_deletion hDelivered rfl
  rw [(h _ _ _ _ hDelivered).complete] at hNever
  cases hNever

end Delivery

end JavaScript
end Wwatp
