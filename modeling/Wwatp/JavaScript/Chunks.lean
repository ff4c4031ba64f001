import Wwatp.Message.LongString

/-! The chunks of the JavaScript client, and its codec for long strings. -/
namespace Wwatp
namespace JavaScript

open Cxx

/-- `SpanChunk`. The headers have the fields of the C++ ones. -/
structure SpanChunk where
  header : ChunkHeader
  payload : List UInt8

/-- `new SpanChunk(new PayloadChunkHeader(requestId, signal, …), payload)`, which counts the payload. -/
def SpanChunk.ofPayload (requestId : UInt16) (signal : UInt8) (payload : List UInt8) : SpanChunk :=
  ⟨.payload ⟨requestId, signal, .ofNat payload.length⟩, payload⟩

/-- `instanceof PayloadChunkHeader`. -/
def SpanChunk.hasPayloadHeader (chunk : SpanChunk) : Bool :=
  match chunk.header with
  | .payload _ => true
  | _ => false

def chunkToWire (chunk : SpanChunk) : List UInt8 :=
  match chunk.header with
  | .noChunk => [0]
  | .signal h => [1, h.signal] ++ leBytes 2 h.requestId.toNat
  | .payload h =>
    [2, h.signal] ++ leBytes 2 h.requestId.toNat ++ leBytes 2 (chunk.payload.length % 2 ^ 16) ++ chunk.payload

/-- `flattenWithSignal`; without any data there is an empty chunk. -/
def flattenWithSignal (dataBytes : List UInt8) (signal : UInt8) (requestId : UInt16) : List SpanChunk :=
  if dataBytes = [] then [.ofPayload requestId signal []]
  else (dataBytes.blocks (1200 - 6)).map (.ofPayload requestId signal)

/-- `utf8Encode` of a well-formed string. -/
def utf8Encode (s : String) : List UInt8 := s.toUTF8.data.toList

/-- `le64Encode` of a number, of which `>>> 0` keeps 32 bits. -/
def le64Encode (n : ℕ) : List UInt8 := leBytes 8 (n % 2 ^ 32)

def encodeChunksLongString (requestId : UInt16) (signal : UInt8) (s : String) : List SpanChunk :=
  flattenWithSignal (le64Encode (utf8Encode s).length ++ utf8Encode s) signal requestId

/-- The loop that collects the bytes of the length. -/
def collect : ℕ → List SpanChunk → Option (List UInt8)
  | 0, _ => some []
  | _ + 1, [] => none
  | need + 1, chunk :: rest =>
    if chunk.hasPayloadHeader then
      let taken := chunk.payload.take (need + 1)
      (collect (need + 1 - taken.length) rest).map (taken ++ ·)
    else none

/-- The inner loop: how many chunks there are up to the one with the last byte that is needed. -/
def chunksTo (totalNeeded : ℕ) : List SpanChunk → ℕ → Option ℕ
  | [], _ => none
  | chunk :: rest, acc =>
    if totalNeeded ≤ acc + chunk.payload.length then some 1
    else (chunksTo totalNeeded rest (acc + chunk.payload.length)).map (· + 1)

/-- The loop over the chunks from `startChunk` on, after some of them. -/
def countChunks (totalNeeded : ℕ) : List SpanChunk → List SpanChunk → ℕ → Option ℕ
  | _, [], _ => none
  | seen, chunk :: rest, available =>
    if chunk.hasPayloadHeader then
      let seen := seen ++ [chunk]
      let available := available + chunk.payload.length
      if totalNeeded ≤ available then
        match chunksTo totalNeeded seen 0 with
        | some count => some count
        | none => countChunks totalNeeded seen rest available
      else countChunks totalNeeded seen rest available
    else none

def canDecodeChunksLongString (startChunk : ℕ) (chunks : List SpanChunk) : Option ℕ :=
  if chunks.length ≤ startChunk then none
  else
    match collect 8 (chunks.drop startChunk) with
    | none => none
    | some bytes => (countChunks (8 + leValue bytes) [] (chunks.drop startChunk) 0).map (startChunk + ·)

section Counting

variable {totalNeeded available : ℕ} {seen chunks rest back : List SpanChunk}

/-- The bytes in some chunks. -/
def payloadSize (chunks : List SpanChunk) : ℕ := (chunks.map fun chunk => chunk.payload.length).sum

@[simp] theorem payloadSize_nil : payloadSize [] = 0 := rfl

@[simp] theorem payloadSize_cons (chunk : SpanChunk) (rest : List SpanChunk) :
    payloadSize (chunk :: rest) = chunk.payload.length + payloadSize rest := rfl

/-- A payload chunk with something in it. -/
def SpanChunk.Filled (chunk : SpanChunk) : Prop := chunk.hasPayloadHeader ∧ 0 < chunk.payload.length

theorem payloadSize_pos (hFilled : ∀ chunk ∈ chunks, chunk.Filled) (hNe : chunks ≠ []) : 0 < payloadSize chunks := by
  obtain ⟨chunk, rest, rfl⟩ := List.exists_cons_of_ne_nil hNe
  have hPos := (hFilled chunk List.mem_cons_self).2
  rw [payloadSize_cons]
  omega

theorem chunksTo_all {acc : ℕ} (hFilled : ∀ chunk ∈ chunks, chunk.Filled) (hNe : chunks ≠ [])
    (hTotal : acc + payloadSize chunks = totalNeeded) : chunksTo totalNeeded chunks acc = some chunks.length := by
  induction chunks generalizing acc with
  | nil => exact absurd rfl hNe
  | cons chunk rest ih =>
      rw [payloadSize_cons] at hTotal
      have hRest := (List.forall_mem_cons.mp hFilled).2
      rw [chunksTo]
      by_cases hLast : rest = []
      · subst hLast
        rw [payloadSize_nil] at hTotal
        rw [if_pos (by omega), List.length_singleton]
      · have hPos := payloadSize_pos hRest hLast
        rw [if_neg (by omega), ih hRest hLast (by omega), Option.map_some, List.length_cons]

/-- Chunks that hold just what is needed are all counted, whatever follows them. -/
theorem countChunks_all (hFilled : ∀ chunk ∈ seen ++ chunks, chunk.Filled) (hNe : chunks ≠ [])
    (hSeen : payloadSize seen = available) (hTotal : available + payloadSize chunks = totalNeeded) :
    countChunks totalNeeded seen (chunks ++ back) available = some (seen.length + chunks.length) := by
  induction chunks generalizing seen available with
  | nil => exact absurd rfl hNe
  | cons chunk rest ih =>
      have hMoved : seen ++ chunk :: rest = seen ++ [chunk] ++ rest := by simp
      rw [hMoved] at hFilled
      rw [payloadSize_cons] at hTotal
      have hPayload := (hFilled chunk (by simp)).1
      have hSeen' : payloadSize (seen ++ [chunk]) = available + chunk.payload.length := by
        rw [payloadSize] at hSeen ⊢
        simp [hSeen]
      rw [List.cons_append, countChunks, if_pos hPayload]
      dsimp only
      by_cases hLast : rest = []
      · subst hLast
        rw [List.append_nil] at hFilled
        rw [payloadSize_nil] at hTotal
        rw [if_pos (by omega), chunksTo_all hFilled (by simp) (by omega)]
        simp
      · have hPos := payloadSize_pos (fun c hc => hFilled c (List.mem_append_right _ hc)) hLast
        rw [if_neg (by omega), ih hFilled hLast hSeen' (by omega)]
        simp only [List.length_append, List.length_cons, List.length_nil, Option.some.injEq]
        omega

/-- Chunks that hold too little are not enough. -/
theorem countChunks_short (hShort : available + payloadSize rest < totalNeeded) :
    countChunks totalNeeded seen rest available = none := by
  induction rest generalizing seen available with
  | nil => rfl
  | cons chunk rest ih =>
      rw [payloadSize_cons] at hShort
      rw [countChunks]
      by_cases hPayload : chunk.hasPayloadHeader
      · rw [if_pos hPayload]
        dsimp only
        rw [if_neg (by omega), ih (by omega)]
      · rw [if_neg hPayload]

/-- The length stands in the first chunk. -/
theorem collect_first {chunk : SpanChunk} (hFilled : chunk.Filled) (hLong : 8 ≤ chunk.payload.length) :
    collect 8 (chunk :: rest) = some (chunk.payload.take 8) := by
  have hLength : (chunk.payload.take 8).length = 8 := by
    rw [List.length_take]
    omega
  rw [collect, if_pos hFilled.1]
  dsimp only
  rw [hLength, Nat.sub_self, collect, Option.map_some, List.append_nil]

end Counting

section LongStrings

variable (requestId : UInt16) (signal : UInt8)

/-- The bytes that a span of one chunk has on the wire. -/
def wireBytes (span : SharedSpan) : List UInt8 := span.chunks.flatMap Chunk.data

theorem chunkToWire_ofPayload {payload : List UInt8} (h : payload.length ≤ maxPayload) :
    chunkToWire (.ofPayload requestId signal payload) = wireBytes (payloadSpan requestId signal payload) := by
  have hLength : (UInt16.ofNat payload.length).toNat = payload.length % 2 ^ 16 := UInt16.toNat_ofNat' ..
  have hTake : payload.take maxPayload = payload := List.take_of_length_le h
  rw [payloadSpan_of_le requestId signal h, wireBytes, List.flatMap_singleton]
  show _ = (ChunkHeader.payload _).toBytes ++ payload.take maxPayload
  rw [hTake, SpanChunk.ofPayload, chunkToWire, ChunkHeader.toBytes, hLength]

/-- Bytes with their number in front, in blocks. -/
theorem flattenWithSignal_counted {bytes : List UInt8} (hLength : bytes.length < 2 ^ 32) :
    flattenWithSignal (le64Encode bytes.length ++ bytes) signal requestId =
      ((leBytes 8 bytes.length ++ bytes).blocks maxPayload).map (.ofPayload requestId signal) := by
  have hNe : leBytes 8 bytes.length ++ bytes ≠ [] := by
    rw [← List.length_pos_iff, List.length_append, leBytes_length]
    omega
  rw [le64Encode, Nat.mod_eq_of_lt hLength, flattenWithSignal, if_neg hNe]
  rfl

/-- The JavaScript encoder cuts the same blocks as the C++ one. -/
theorem encodeChunksLongString_eq (s : String) (hLength : (utf8Encode s).length < 2 ^ 32) :
    encodeChunksLongString requestId signal s =
      ((leBytes 8 (utf8Encode s).length ++ utf8Encode s).blocks maxPayload).map (.ofPayload requestId signal) :=
  flattenWithSignal_counted requestId signal hLength

theorem length_encodeChunksLongString (s : String) (hLength : (utf8Encode s).length < 2 ^ 32) :
    (encodeChunksLongString requestId signal s).length = (encodeLongString requestId signal (utf8Encode s)).length := by
  rw [encodeChunksLongString_eq requestId signal s hLength, encodeLongString_eq, List.length_map, List.length_map]

theorem wire_encodeChunksLongString (s : String) (hLength : (utf8Encode s).length < 2 ^ 32) :
    (encodeChunksLongString requestId signal s).map chunkToWire =
      (encodeLongString requestId signal (utf8Encode s)).map wireBytes := by
  rw [encodeChunksLongString_eq requestId signal s hLength, encodeLongString_eq, List.map_map, List.map_map]
  apply List.map_congr_left
  intro block hBlock
  exact chunkToWire_ofPayload requestId signal (List.length_of_mem_blocks (by decide) hBlock).2

/-- What the client makes of the chunks from a place on: it wants as many bytes as the first of them
says. -/
theorem canDecodeChunks_of_first {front rest : List SpanChunk} {chunk : SpanChunk} (hFilled : chunk.Filled)
    (hLong : 8 ≤ chunk.payload.length) :
    canDecodeChunksLongString front.length (front ++ chunk :: rest) =
      (countChunks (8 + leValue (chunk.payload.take 8)) [] (chunk :: rest) 0).map (front.length + ·) := by
  rw [canDecodeChunksLongString, if_neg (by simp), List.drop_left, collect_first hFilled hLong]

/-- The chunks of a long string: all filled, the length in the first, and as long as it says. -/
theorem counted_chunks {bytes : List UInt8} (hLength : bytes.length < 2 ^ 32) :
    (∀ chunk ∈ flattenWithSignal (le64Encode bytes.length ++ bytes) signal requestId, chunk.Filled) ∧
      payloadSize (flattenWithSignal (le64Encode bytes.length ++ bytes) signal requestId) = 8 + bytes.length ∧
      ∃ chunk rest, flattenWithSignal (le64Encode bytes.length ++ bytes) signal requestId = chunk :: rest ∧
        8 ≤ chunk.payload.length ∧ leValue (chunk.payload.take 8) = bytes.length := by
  have hNe : leBytes 8 bytes.length ++ bytes ≠ [] := by
    rw [← List.length_pos_iff, List.length_append, leBytes_length]
    omega
  rw [flattenWithSignal_counted requestId signal hLength]
  refine ⟨fun chunk hChunk => ?_, ?_, ?_⟩
  · obtain ⟨block, hBlock, rfl⟩ := List.mem_map.mp hChunk
    exact ⟨rfl, (List.length_of_mem_blocks (by decide) hBlock).1⟩
  · rw [payloadSize, List.map_map]
    show (List.map List.length _).sum = _
    rw [← List.length_flatten, List.blocks_flatten (by decide), List.length_append, leBytes_length]
  · rw [List.blocks_of_ne_nil (by decide) hNe, List.map_cons]
    refine ⟨_, _, rfl, ?_, ?_⟩
    · show 8 ≤ (List.take maxPayload _).length
      rw [List.length_take, List.length_append, leBytes_length, maxPayload]
      omega
    · show leValue (List.take 8 (List.take maxPayload _)) = _
      rw [List.take_take, Nat.min_eq_left (by decide), List.take_left' (leBytes_length _ _),
        leValue_leBytes (by norm_num at hLength ⊢; omega)]

/-- Wherever the encoding of a string stands, the client finds its end. -/
theorem canDecodeChunks_counted {bytes : List UInt8} (hLength : bytes.length < 2 ^ 32) (front back : List SpanChunk) :
    canDecodeChunksLongString front.length
        (front ++ flattenWithSignal (le64Encode bytes.length ++ bytes) signal requestId ++ back) =
      some (front.length + (flattenWithSignal (le64Encode bytes.length ++ bytes) signal requestId).length) := by
  obtain ⟨hFilled, hSize, chunk, rest, hChunks, hLong, hValue⟩ := counted_chunks requestId signal hLength
  rw [hChunks] at hFilled hSize ⊢
  have hCount : countChunks (8 + bytes.length) [] (chunk :: rest ++ back) 0 = some (0 + (chunk :: rest).length) :=
    countChunks_all hFilled (by simp) payloadSize_nil (by omega)
  rw [List.append_assoc, List.cons_append, canDecodeChunks_of_first (hFilled chunk List.mem_cons_self) hLong, hValue,
    ← List.cons_append, hCount, Nat.zero_add, Option.map_some]

/-- Without its last chunks the encoding of a string cannot be decoded. -/
theorem canDecodeChunks_counted_take {bytes : List UInt8} (hLength : bytes.length < 2 ^ 32) (front : List SpanChunk)
    {k : ℕ} (h : k < (flattenWithSignal (le64Encode bytes.length ++ bytes) signal requestId).length) :
    canDecodeChunksLongString front.length
      (front ++ (flattenWithSignal (le64Encode bytes.length ++ bytes) signal requestId).take k) = none := by
  obtain ⟨hFilled, hSize, chunk, rest, hChunks, hLong, hValue⟩ := counted_chunks requestId signal hLength
  rw [hChunks] at hFilled hSize h ⊢
  cases k with
  | zero => rw [List.take_zero, List.append_nil, canDecodeChunksLongString, if_pos (Nat.le_refl _)]
  | succ k =>
      rw [List.take_succ_cons, canDecodeChunks_of_first (hFilled chunk List.mem_cons_self) hLong, hValue]
      -- the chunks that are missing hold something
      have hMissing : 0 < payloadSize (rest.drop k) := by
        refine payloadSize_pos (fun c hc => hFilled c (List.mem_cons_of_mem _ (List.mem_of_mem_drop hc))) fun hNil => ?_
        have hAll := List.drop_eq_nil_iff.mp hNil
        rw [List.length_cons] at h
        omega
      have hSplit : payloadSize rest = payloadSize (rest.take k) + payloadSize (rest.drop k) := by
        rw [payloadSize, payloadSize, payloadSize, ← List.sum_append, ← List.map_append, List.take_append_drop]
      rw [payloadSize_cons] at hSize
      rw [countChunks_short (by rw [payloadSize_cons]; omega), Option.map_none]

/-- Both clients cut a string into the same chunks, C++ reads it back, and both find the end of the
chunks at every place and no end as long as some are missing. -/
theorem longString_agrees (s : String) (hLength : (utf8Encode s).length < 2 ^ 31) :
    (encodeChunksLongString requestId signal s).map chunkToWire =
        (encodeLongString requestId signal (utf8Encode s)).map wireBytes ∧
      (∀ back, decodeLongString (encodeLongString requestId signal (utf8Encode s) ++ back) =
        .ok ((encodeChunksLongString requestId signal s).length, utf8Encode s)) ∧
      (∀ front back,
        canDecodeLongString front.length (front ++ encodeLongString requestId signal (utf8Encode s) ++ back) =
          .ok (some (front.length + (encodeChunksLongString requestId signal s).length))) ∧
      (∀ front back,
        canDecodeChunksLongString front.length (front ++ encodeChunksLongString requestId signal s ++ back) =
          some (front.length + (encodeChunksLongString requestId signal s).length)) ∧
      ∀ k < (encodeChunksLongString requestId signal s).length,
        (∀ front, canDecodeLongString front.length
          (front ++ (encodeLongString requestId signal (utf8Encode s)).take k) = .ok none) ∧
        ∀ front, canDecodeChunksLongString front.length
          (front ++ (encodeChunksLongString requestId signal s).take k) = none := by
  have hSame := length_encodeChunksLongString requestId signal s (by omega)
  have hCount : longStringChunks (utf8Encode s).length = (encodeChunksLongString requestId signal s).length := by
    rw [hSame, length_encodeLongString, longStringChunks_of_lt (by omega)]
  refine ⟨wire_encodeChunksLongString requestId signal s (by omega), fun back => ?_, fun front back => ?_, fun front back => ?_,
    fun k hk => ⟨fun front => ?_, fun front => ?_⟩⟩
  · rw [decodeLongString_encode_of_lt requestId signal (by omega), hSame]
  · rw [canDecodeLongString_encode requestId signal (by omega), hCount]
  · exact canDecodeChunks_counted requestId signal (by omega) front back
  · exact canDecodeLongString_take requestId signal (by omega) front (hSame ▸ hk)
  · exact canDecodeChunks_counted_take requestId signal (by omega) front hk

theorem longString_agrees_umlaut :
    (encodeChunksLongString 1 0x08 "ä").map chunkToWire = (encodeLongString 1 0x08 (utf8Encode "ä")).map wireBytes :=
  (longString_agrees 1 0x08 "ä" (by decide)).1

end LongStrings

end JavaScript
end Wwatp
