import Wwatp.JavaScript.Responses

/-! The handler for the response to a request of the JavaScript client. The transport gives it the bytes of
a response in events, and each of them is parsed on its own. -/
namespace Wwatp
namespace JavaScript

open Cxx

/-- An event of the transport: `{ data }` or `{ type: 'end' }`. -/
inductive TransportEvent
  | data (bytes : List UInt8)
  | ended

/-- What the handler knows of its request: the signal of its first chunk, the id of its message, and whether it asks for
the journal. -/
structure Dispatched where
  requestSignal : UInt8
  requestId : UInt16
  isJournal : Bool := false

/-- What the loop over the bytes of an event keeps. -/
structure Parsed where
  message : ReceivedResponse
  lastTyped : Option UInt8 := none
  sawFinal : Bool := false

/-- `chunk.header.request_id = msg.requestId` -/
def SpanChunk.withRequestId (requestId : UInt16) (chunk : SpanChunk) : SpanChunk :=
  match chunk.header with
  | .noChunk => chunk
  | .signal h => { chunk with header := .signal { h with requestId := requestId } }
  | .payload h => { chunk with header := .payload { h with requestId := requestId } }

namespace Parsed

/-- Typed and terminal signals are tracked. -/
def track (s : Parsed) : Option UInt8 → Parsed
  | none => s
  | some 0x06 => { s with sawFinal := true }
  | some 0x04 => s
  | some signal => { s with lastTyped := some signal }

/-- A chunk in the loop; heartbeats are ignored. -/
def takeChunk (requestId : UInt16) (s : Parsed) (chunk : SpanChunk) : Parsed :=
  if chunk.signal = some 0x02 then s.track chunk.signal
  else { s.track chunk.signal with message := s.message.pushResponseChunk (chunk.withRequestId requestId) }

theorem message_track (s : Parsed) (signal : Option UInt8) : (s.track signal).message = s.message := by
  unfold track
  split <;> rfl

theorem sawFinal_track (s : Parsed) (signal : Option UInt8) :
    (s.track signal).sawFinal = (s.sawFinal || decide (signal = some 0x06)) := by
  unfold track
  split <;> simp_all

theorem chunkFromWire_read {bytes : List UInt8} {chunk : SpanChunk} {read : ℕ} (h : chunkFromWire bytes = some (chunk, read)) :
    0 < read ∧ bytes ≠ [] := by
  unfold chunkFromWire at h
  split at h
  · obtain ⟨-, rfl⟩ := Prod.mk.inj (Option.some.inj h)
    exact ⟨by decide, List.cons_ne_nil _ _⟩
  · obtain ⟨-, rfl⟩ := Prod.mk.inj (Option.some.inj h)
    exact ⟨by decide, List.cons_ne_nil _ _⟩
  · dsimp only at h
    split_ifs at h
    obtain ⟨-, rfl⟩ := Prod.mk.inj (Option.some.inj h)
    exact ⟨by omega, List.cons_ne_nil _ _⟩
  · cases h

/-- The loop over the bytes of an event, and whether it throws. -/
def parseBytes (requestId : UInt16) (s : Parsed) (bytes : List UInt8) : Parsed × Bool :=
  if bytes = [] then (s, false)
  else
    match _h : chunkFromWire bytes with
    | none => (s, true)
    | some (chunk, read) => parseBytes requestId (s.takeChunk requestId chunk) (bytes.drop read)
termination_by bytes.length
decreasing_by
  obtain ⟨hRead, hNe⟩ := chunkFromWire_read _h
  have := List.length_pos_of_ne_nil hNe
  rw [List.length_drop]
  omega

end Parsed

/-- The switch over the signal of the request: the signal of a response that is ready. -/
def readySignal (requestSignal : UInt8) (sawFinal : Bool) (chunks : List SpanChunk) : Option UInt8 :=
  match requestSignal with
  | 0x07 => if (canDecodeChunksMaybeTreeNode 0 chunks).isSome then some 0x08 else none
  | 0x09 => if chunks.any (·.signal = some 0x0A) then some 0x0A else none
  | 0x0B => if chunks.length ≥ 1 then some 0x0C else none
  | 0x0D => if (canDecodeChunksVectorTreeNode 0 chunks).isSome then some 0x0E else none
  | 0x0F => if (canDecodeChunksVectorTreeNode 0 chunks).isSome then some 0x10 else none
  | 0x11 => if chunks.length ≥ 1 then some 0x12 else none
  | 0x13 => if chunks.length ≥ 1 then some 0x14 else none
  | 0x15 => if chunks.length ≥ 1 then some 0x16 else none
  | 0x17 => if (canDecodeChunksVectorTreeNode 0 chunks).isSome then some 0x18 else none
  | 0x19 => if chunks.length ≥ 1 then some 0x1A else none
  | 0x1B => if chunks.length ≥ 1 then some 0x1C else none
  | 0x1D => if chunks.length ≥ 1 then some 0x1E else none
  | 0x1F => some 0x20
  | 0x21 =>
    if (canDecodeChunksVectorSequentialNotification 0 chunks).isSome then some 0x22
    else if sawFinal then some 0x22
    else none
  | _ => none

/-- The requests whose answer may be a `RESPONSE_FINAL` alone. -/
def boolish (requestSignal : UInt8) : Bool := requestSignal ∈ [0x09, 0x0B, 0x11, 0x13, 0x1D, 0x1F, 0x15]

/-- What `handleEvent` comes to: it waits, throws, or hands the message to `processHTTP3Response`. -/
inductive Handling
  | waiting (message : ReceivedResponse)
  | threw (message : ReceivedResponse)
  | ready (message : ReceivedResponse)

namespace Dispatched

def handleEnd (d : Dispatched) (message : ReceivedResponse) : Handling :=
  if boolish d.requestSignal ∨ d.requestSignal = 0x21 ∨ d.isJournal then
    .ready { message with signal := if d.requestSignal = 0x21 then 0x22 else 0x06 }
  else .waiting message

/-- What follows on the bytes of an event. -/
def gate (d : Dispatched) (s : Parsed) : Handling :=
  match readySignal d.requestSignal s.sawFinal s.message.responseChunks with
  | some signal => .ready { s.message with signal := signal }
  | none =>
    if 0x07 ≤ d.requestSignal ∧ d.requestSignal ≤ 0x21 then
      if s.sawFinal ∧ boolish d.requestSignal then .ready { s.message with signal := 0x06 } else .waiting s.message
    else
      let message := { s.message with signal := s.lastTyped.getD (if s.sawFinal then 0x06 else s.message.signal) }
      if message.signal = 0x06 ∨ s.lastTyped.isSome then .ready message else .waiting message

def handleEvent (d : Dispatched) (message : ReceivedResponse) : TransportEvent → Handling
  | .ended => d.handleEnd message
  | .data bytes =>
    match Parsed.parseBytes d.requestId { message := message } bytes with
    | (s, true) => .threw s.message
    | (s, false) => d.gate s

end Dispatched

section Wire

variable {chunk : SpanChunk} {requestId : UInt16}

/-- A chunk whose header fits its payload, so that it can be written and read. -/
inductive SpanChunk.Legal : SpanChunk → Prop
  | noChunk : Legal ⟨.noChunk, []⟩
  | signal (h : SignalChunkHeader) : Legal ⟨.signal h, []⟩
  | payload (requestId : UInt16) (signal : UInt8) (payload : List UInt8) (h : payload.length < 2 ^ 16) :
      Legal (.ofPayload requestId signal payload)

theorem chunkToWire_ne_nil (h : chunk.Legal) : chunkToWire chunk ≠ [] := by
  cases h <;> simp [chunkToWire, SpanChunk.ofPayload]

/-- A chunk is read back, whatever follows it. -/
theorem chunkFromWire_chunkToWire (h : chunk.Legal) (rest : List UInt8) :
    chunkFromWire (chunkToWire chunk ++ rest) = some (chunk, (chunkToWire chunk).length) := by
  cases h with
  | noChunk => rfl
  | signal h =>
      obtain ⟨id₀, id₁, hId⟩ : ∃ id₀ id₁, leBytes 2 h.requestId.toNat = [id₀, id₁] := ⟨_, _, rfl⟩
      have hValue : leValue [id₀, id₁] = h.requestId.toNat := hId ▸ leValue_leBytes h.requestId.toNat_lt
      have hWire : chunkToWire ⟨.signal h, []⟩ = [1, h.signal, id₀, id₁] := by
        show [1, h.signal] ++ leBytes 2 h.requestId.toNat = _
        rw [hId]
        rfl
      rw [hWire]
      show some (SpanChunk.mk (.signal ⟨.ofNat (leValue [id₀, id₁]), h.signal⟩) [], 4) = _
      rw [hValue, UInt16.ofNat_toNat]
      rfl
  | payload requestId signal payload h =>
      have hLength : (UInt16.ofNat payload.length).toNat = payload.length := UInt16.toNat_ofNat_of_lt' h
      have hWire : chunkToWire (.ofPayload requestId signal payload) =
          (ChunkHeader.payload ⟨requestId, signal, .ofNat payload.length⟩).toBytes ++ payload := by
        rw [SpanChunk.ofPayload, chunkToWire, ChunkHeader.toBytes, hLength, Nat.mod_eq_of_lt h]
      rw [hWire, List.append_assoc, chunkFromWire_payload _ (by rw [hLength]; simp), hLength, List.take_left,
        List.length_append, ChunkHeader.toBytes_length]
      rfl

/-- A chunk that is cut short cannot be read. -/
theorem chunkFromWire_take (h : chunk.Legal) {k : ℕ} (hk : k < (chunkToWire chunk).length) :
    chunkFromWire ((chunkToWire chunk).take k) = none := by
  cases h with
  | noChunk =>
      obtain rfl : k = 0 := Nat.lt_one_iff.mp hk
      rfl
  | signal h =>
      obtain ⟨id₀, id₁, hId⟩ : ∃ id₀ id₁, leBytes 2 h.requestId.toNat = [id₀, id₁] := ⟨_, _, rfl⟩
      have hWire : chunkToWire ⟨.signal h, []⟩ = [1, h.signal, id₀, id₁] := by
        show [1, h.signal] ++ leBytes 2 h.requestId.toNat = _
        rw [hId]
        rfl
      rw [hWire] at hk ⊢
      have hFour : k < 4 := hk
      interval_cases k <;> rfl
  | payload requestId signal payload h =>
      obtain ⟨id₀, id₁, hId⟩ : ∃ id₀ id₁, leBytes 2 requestId.toNat = [id₀, id₁] := ⟨_, _, rfl⟩
      obtain ⟨len₀, len₁, hLen⟩ : ∃ len₀ len₁, leBytes 2 payload.length = [len₀, len₁] := ⟨_, _, rfl⟩
      have hValue : leValue [len₀, len₁] = payload.length := hLen ▸ leValue_leBytes h
      have hWire : chunkToWire (.ofPayload requestId signal payload) =
          2 :: signal :: id₀ :: id₁ :: len₀ :: len₁ :: payload := by
        show [2, signal] ++ leBytes 2 requestId.toNat ++ leBytes 2 (payload.length % 2 ^ 16) ++ payload = _
        rw [Nat.mod_eq_of_lt h, hId, hLen]
        rfl
      rw [hWire] at hk ⊢
      by_cases hHeader : k < 6
      · interval_cases k <;> rfl
      · obtain ⟨k, rfl⟩ := Nat.exists_eq_add_of_le' (Nat.not_lt.mp hHeader)
        have hShort : (payload.take k).length < leValue [len₀, len₁] := by
          rw [hValue, List.length_take]
          simp only [List.length_cons] at hk
          omega
        show (if (payload.take k).length < leValue [len₀, len₁] then none else _) = none
        exact if_pos hShort

/-- An event that ends with a chunk is parsed into its chunks. -/
theorem parseBytes_chunks {chunks : List SpanChunk} (hLegal : ∀ chunk ∈ chunks, chunk.Legal) (s : Parsed)
    (rest : List UInt8) : s.parseBytes requestId (chunks.flatMap chunkToWire ++ rest) =
      (chunks.foldl (Parsed.takeChunk requestId) s).parseBytes requestId rest := by
  induction chunks generalizing s with
  | nil => rfl
  | cons chunk more ih =>
      obtain ⟨hChunk, hMore⟩ := List.forall_mem_cons.mp hLegal
      have hNe : (chunk :: more).flatMap chunkToWire ++ rest ≠ [] := by simp [chunkToWire_ne_nil hChunk]
      have hRead : chunkFromWire ((chunk :: more).flatMap chunkToWire ++ rest) =
          some (chunk, (chunkToWire chunk).length) := by
        rw [List.flatMap_cons, List.append_assoc]
        exact chunkFromWire_chunkToWire hChunk _
      rw [Parsed.parseBytes, if_neg hNe]
      split
      · next hNone => rw [hRead] at hNone; cases hNone
      · next found read hFound =>
          rw [hRead] at hFound
          obtain ⟨rfl, rfl⟩ := Prod.mk.inj (Option.some.inj hFound)
          rw [List.flatMap_cons, List.append_assoc, List.drop_left, ih hMore, List.foldl_cons]

theorem parseBytes_nil (s : Parsed) : s.parseBytes requestId [] = (s, false) := by rw [Parsed.parseBytes, if_pos rfl]

/-- The chunks of an event that are pushed into the message: heartbeats are not. -/
def pushedOf (requestId : UInt16) (chunks : List SpanChunk) : List SpanChunk :=
  (chunks.filter fun chunk => chunk.signal ≠ some 0x02).map (SpanChunk.withRequestId requestId)

theorem foldl_takeChunk (chunks : List SpanChunk) (s : Parsed) :
    ∃ lastTyped, chunks.foldl (Parsed.takeChunk requestId) s =
      ⟨s.message.pushResponseChunks (pushedOf requestId chunks), lastTyped,
        s.sawFinal || chunks.any (·.signal = some 0x06)⟩ := by
  induction chunks generalizing s with
  | nil => exact ⟨s.lastTyped, by simp [pushedOf, ReceivedResponse.pushResponseChunks]⟩
  | cons chunk rest ih =>
      obtain ⟨lastTyped, hRest⟩ := ih (s.takeChunk requestId chunk)
      refine ⟨lastTyped, ?_⟩
      rw [List.foldl_cons, hRest, List.any_cons]
      have hFinal : (s.takeChunk requestId chunk).sawFinal = (s.sawFinal || decide (chunk.signal = some 0x06)) := by
        rw [Parsed.takeChunk, ← s.sawFinal_track]
        split_ifs <;> rfl
      have hMessage : (s.takeChunk requestId chunk).message =
          if chunk.signal = some 0x02 then s.message
          else s.message.pushResponseChunk (chunk.withRequestId requestId) := by
        rw [Parsed.takeChunk]
        split_ifs
        · exact s.message_track _
        · rfl
      rw [hFinal, hMessage, Bool.or_assoc]
      by_cases hBeat : chunk.signal = some 0x02
      · rw [if_pos hBeat, pushedOf, pushedOf, List.filter_cons_of_neg (by simp [hBeat])]
      · rw [if_neg hBeat, pushedOf, pushedOf, List.filter_cons_of_pos (by simp [hBeat]), List.map_cons]
        rfl

/-- An event with whole chunks. -/
theorem handleEvent_chunks {chunks : List SpanChunk} (hLegal : ∀ chunk ∈ chunks, chunk.Legal) (d : Dispatched)
    (message : ReceivedResponse) :
    ∃ lastTyped, d.handleEvent message (.data (chunks.flatMap chunkToWire)) =
      d.gate ⟨message.pushResponseChunks (pushedOf d.requestId chunks), lastTyped, chunks.any (·.signal = some 0x06)⟩ := by
  have hParsed := @parseBytes_chunks d.requestId _ hLegal { message := message } []
  obtain ⟨lastTyped, hAll⟩ := @foldl_takeChunk d.requestId chunks { message := message }
  rw [List.append_nil, parseBytes_nil, hAll] at hParsed
  exact ⟨lastTyped, by rw [Dispatched.handleEvent, hParsed]; rfl⟩

/-- An event that ends inside a chunk throws. -/
theorem parseBytes_cut {chunks : List SpanChunk} (hLegal : ∀ chunk ∈ chunks, chunk.Legal) (hChunk : chunk.Legal)
    (s : Parsed) {k : ℕ} (hPos : 0 < k) (hk : k < (chunkToWire chunk).length) :
    (s.parseBytes requestId (chunks.flatMap chunkToWire ++ (chunkToWire chunk).take k)).2 = true := by
  have hNe : (chunkToWire chunk).take k ≠ [] := by
    rw [← List.length_pos_iff, List.length_take]
    omega
  rw [parseBytes_chunks hLegal, Parsed.parseBytes, if_neg hNe]
  split
  · rfl
  · next found => rw [chunkFromWire_take hChunk hk] at found; cases found

end Wire

end JavaScript
end Wwatp
