import Wwatp.Transport.AppendData

/-! Reassembly is right for exactly those cuts of a stream that never leave a
header incomplete a second time: `append_data` asks for all the missing bytes of a
header at once, whatever the fragment holds. -/
namespace Wwatp

open Cxx

/-- A well-formed chunk on the wire: a signal header alone, or a payload header
with the 1 to 1194 bytes it announces. -/
structure WireChunk where
  header : ChunkHeader
  data : List UInt8
  legal : match header with
    | .noChunk => False
    | .signal _ => data = []
    | .payload h => data.length = h.dataLength.toNat ∧ 0 < data.length ∧ data.length ≤ 1194

namespace WireChunk

/-- The bytes of the chunk on the wire. -/
def bytes (w : WireChunk) : List UInt8 := w.header.toBytes ++ w.data

/-- The chunk in memory. -/
def span (w : WireChunk) : SharedSpan := .ofSignal w.header w.data

def size (w : WireChunk) : Nat := w.bytes.length

def headerSize (w : WireChunk) : Nat := w.header.size

theorem size_eq (w : WireChunk) : w.size = w.headerSize + w.data.length := by
  simp [size, bytes, headerSize]

theorem data_length_le (w : WireChunk) : w.data.length ≤ 1194 := by
  obtain ⟨header, data, hLegal⟩ := w
  cases header with
  | noChunk => exact hLegal.elim
  | signal h => simp [show data = [] from hLegal]
  | payload h => exact hLegal.2.2

theorem headerSize_cases (w : WireChunk) :
    (∃ h, w.header = .signal h ∧ w.headerSize = 4 ∧ w.size = 4) ∨
      (∃ h, w.header = .payload h ∧ w.headerSize = 6 ∧ w.size = h.wireSize ∧ 6 < w.size) := by
  obtain ⟨header, data, hLegal⟩ := w
  cases header with
  | noChunk => exact hLegal.elim
  | signal h =>
      have hNil : data = [] := hLegal
      subst hNil
      exact .inl ⟨h, rfl, rfl, rfl⟩
  | payload h =>
      obtain ⟨hLength, hPos, -⟩ := id hLegal
      refine .inr ⟨h, rfl, rfl, ?_, ?_⟩
      · rw [size_eq, hLength]
        rfl
      · rw [size_eq]
        simp only [headerSize, ChunkHeader.size]
        omega

theorem headerSize_le (w : WireChunk) : w.headerSize ≤ w.size := by
  rw [size_eq]
  exact Nat.le_add_right _ _

theorem headerSize_pos (w : WireChunk) : 0 < w.headerSize := w.header.size_pos

theorem size_le (w : WireChunk) : w.size ≤ chunkSize := by
  have hData := w.data_length_le
  have hHeader := w.header.size_le
  rw [size_eq, headerSize, chunkSize]
  omega

/-- The chunk in progress after some of its bytes have been received. -/
def inProgress (w : WireChunk) (received : Nat) : SharedSpan :=
  if h : received = 0 then .empty
  else
    { chunks := [{
        data := w.bytes.take received
        first := min received w.headerSize
        first_pos := by
          have hPos := w.headerSize_pos
          omega
        first_le := by
          have hLe := w.headerSize_le
          simp only [size] at hLe
          rw [List.length_take]
          omega
        fits := le_trans (by simp [size]) w.size_le }]
      signalType := w.header.signalType }

/-- Once the header is complete, what was received is the header and some data. -/
theorem take_bytes {w : WireChunk} {received : Nat} (h : w.headerSize ≤ received) :
    w.bytes.take received = w.header.toBytes ++ w.data.take (received - w.headerSize) := by
  rw [bytes, List.take_append, List.take_of_length_le (by simpa [headerSize] using h)]
  simp [headerSize]

section InProgress

variable (w : WireChunk) {received : Nat} (hPos : 0 < received) (hLe : received ≤ w.size)

include hPos

theorem getSignalSize_inProgress : (w.inProgress received).getSignalSize = .ok w.headerSize := by
  have hNe : received ≠ 0 := Nat.pos_iff_ne_zero.mp hPos
  rcases w.headerSize_cases with ⟨h, hHeader, hSize, -⟩ | ⟨h, hHeader, hSize, -⟩ <;>
    simp [inProgress, hNe, SharedSpan.getSignalSize, hHeader, ChunkHeader.signalType, hSize]

theorem storedSize_inProgress (hLe : received ≤ w.size) : (w.inProgress received).storedSize = received := by
  have hNe : received ≠ 0 := Nat.pos_iff_ne_zero.mp hPos
  simp only [size] at hLe
  simp [inProgress, hNe, SharedSpan.storedSize, hLe]

/-- The wire size is known once the header is complete. -/
theorem getWireSize_inProgress :
    (w.inProgress received).getWireSize = .ok (if received < w.headerSize then received else w.size) := by
  have hNe : received ≠ 0 := Nat.pos_iff_ne_zero.mp hPos
  rcases w.headerSize_cases with ⟨h, hHeader, hSize, hWire⟩ | ⟨h, hHeader, hSize, hWire, -⟩
  · simp only [inProgress, hNe, ↓reduceDIte, SharedSpan.getWireSize, hHeader,
      ChunkHeader.signalType, hSize, hWire]
    by_cases hShort : received < 4
    · simp [hShort, Nat.min_eq_left (Nat.le_of_lt hShort)]
    · simp [hShort]
  · simp only [inProgress, hNe, ↓reduceDIte, SharedSpan.getWireSize, hHeader,
      ChunkHeader.signalType, hSize, hWire]
    by_cases hShort : received < 6
    · simp [hShort, Nat.min_eq_left (Nat.le_of_lt hShort)]
    · rw [take_bytes (by omega), hHeader, PayloadChunkHeader.ofBytes_toBytes]
      simp [hShort]

theorem chunkComplete_inProgress (hLe : received ≤ w.size) :
    chunkComplete (w.inProgress received) = .ok (decide (received = w.size)) := by
  have hHeader := w.headerSize_le
  rw [chunkComplete, w.getWireSize_inProgress hPos, w.getSignalSize_inProgress hPos,
    w.storedSize_inProgress hPos hLe]
  by_cases hShort : received < w.headerSize
  · have hNot : received ≠ w.size := by omega
    simp [hShort, hNot]
  · simp [hShort, hHeader]

/-- Bytes that continue the chunk in progress. -/
theorem fillLast_inProgress {count : Nat} {data : List UInt8} (hFits : received + count ≤ w.size)
    (hData : data.take count = (w.bytes.drop received).take count) (hCount : count ≤ data.length) :
    (w.inProgress received).fillLast w.headerSize count data = .ok (w.inProgress (received + count)) := by
  have hNe : received ≠ 0 := Nat.pos_iff_ne_zero.mp hPos
  have hSum : received + count ≠ 0 := by omega
  have hSize := w.size_le
  have hTake : (w.bytes.take received).length = received := by
    rw [List.length_take]
    simp only [size] at hFits
    omega
  have hRoom : ¬ chunkSize - received < count := by omega
  have hEnough : received + (data.take count).length ≤ chunkSize := by
    rw [List.length_take, Nat.min_eq_left hCount]
    omega
  have hBytes : w.bytes.take (received + count) = w.bytes.take received ++ data.take count := by
    rw [hData, List.take_add]
  simp only [inProgress, hNe, hSum, ↓reduceDIte, SharedSpan.fillLast, List.getLast?_singleton, hTake,
    hRoom, ↓reduceIte, Nat.not_lt.mpr hCount, hEnough, List.dropLast_singleton, List.nil_append]
  congr 3
  ext1
  · exact hBytes.symm
  · simp only [Chunk.extend, List.length_take, Nat.min_eq_left hCount]
    split_ifs <;> omega

end InProgress

/-- With its header complete, a chunk in progress is what the constructor makes of
the header and the data so far. -/
theorem inProgress_of_header {w : WireChunk} {received : Nat} (hHeader : w.headerSize ≤ received) :
    w.inProgress received = .ofSignal w.header (w.data.take (received - w.headerSize)) := by
  have hPos := w.headerSize_pos
  have hData := w.data_length_le
  have hSmall := w.header.size_le
  have hFits : (w.data.take (received - w.headerSize)).length ≤ chunkSize - w.header.size := by
    rw [List.length_take, chunkSize]
    omega
  rw [SharedSpan.ofSignal_of_le hFits, inProgress, dif_neg (by omega)]
  congr 2
  ext1
  · simp only [Chunk.ofHeader, List.take_of_length_le hFits, take_bytes hHeader]
  · exact Nat.min_eq_right hHeader

theorem inProgress_size (w : WireChunk) : w.inProgress w.size = w.span := by
  rw [inProgress_of_header w.headerSize_le, span]
  congr 1
  apply List.take_of_length_le
  rw [size_eq]
  omega

/-- With its header incomplete, a chunk in progress is a partial header. -/
theorem inProgress_of_lt {w : WireChunk} {received : Nat} (hPos : 0 < received)
    (hShort : received < w.headerSize) {b : UInt8} {rest : List UInt8}
    (hBytes : w.bytes.take received = b :: rest) (hType : w.header.signalType = b) :
    w.inProgress received = .partialHeader b rest := by
  have hHeader := w.headerSize_le
  have hSize := w.size_le
  have hLength : (b :: rest).length = received := by
    rw [← hBytes, List.length_take]
    exact Nat.min_eq_left (by rw [← size]; omega)
  have hWhole : (b :: rest).take chunkSize = b :: rest := List.take_of_length_le (by omega)
  rw [inProgress, dif_neg (by omega), SharedSpan.partialHeader, hType]
  congr 2
  ext1
  · simp only [hWhole, hBytes]
  · simp only [hWhole, hLength]
    exact Nat.min_eq_left (Nat.le_of_lt hShort)

theorem bytes_eq_cons (w : WireChunk) : ∃ rest, w.bytes = w.header.signalType :: rest := by
  rcases w.headerSize_cases with ⟨h, hHeader, -⟩ | ⟨h, hHeader, -⟩ <;>
    exact ⟨_, by rw [bytes, hHeader]; rfl⟩

/-- The first bytes of a chunk start it. -/
theorem createFromData_take (w : WireChunk) {count : Nat} (hPos : 0 < count) (hLe : count ≤ w.size) :
    SharedSpan.createFromData (w.bytes.take count) = .ok (w.inProgress count) := by
  have hLength : (w.bytes.take count).length = count := by
    rw [List.length_take]
    exact Nat.min_eq_left hLe
  obtain ⟨rest, hBytes⟩ : ∃ rest, w.bytes.take count = w.header.signalType :: rest := by
    obtain ⟨tail, hTail⟩ := w.bytes_eq_cons
    cases count with
    | zero => omega
    | succ n => exact ⟨tail.take n, by rw [hTail, List.take_succ_cons]⟩
  rw [hBytes] at hLength
  by_cases hShort : count < w.headerSize
  · rw [hBytes, inProgress_of_lt hPos hShort hBytes rfl]
    rcases w.headerSize_cases with ⟨h, hHeader, hSize, -⟩ | ⟨h, hHeader, hSize, -⟩
    · have hLess : ¬ 4 ≤ (w.header.signalType :: rest).length := by omega
      rw [hHeader] at hLess ⊢
      simp only [ChunkHeader.signalType] at hLess ⊢
      simp only [SharedSpan.createFromData, hLess, ↓reduceIte]
      rfl
    · have hLess : ¬ 6 ≤ (w.header.signalType :: rest).length := by omega
      rw [hHeader] at hLess ⊢
      simp only [ChunkHeader.signalType] at hLess ⊢
      simp only [SharedSpan.createFromData, hLess, ↓reduceIte]
      rfl
  · have hSplit := take_bytes (Nat.le_of_not_lt hShort)
    rw [inProgress_of_header (Nat.le_of_not_lt hShort)]
    rw [hBytes] at hSplit ⊢
    rcases w.headerSize_cases with ⟨h, hHeader, hSize, -⟩ | ⟨h, hHeader, hSize, -⟩
    · have hEnough : 4 ≤ (w.header.signalType :: rest).length := by omega
      rw [hHeader] at hSplit hEnough ⊢
      simp only [ChunkHeader.signalType] at hSplit hEnough ⊢
      simp only [SharedSpan.createFromData, hEnough, ↓reduceIte]
      rw [hSplit, SignalChunkHeader.ofBytes_toBytes]
      rfl
    · have hEnough : 6 ≤ (w.header.signalType :: rest).length := by omega
      have hTwo : (2 : UInt8) ≠ 0 ∧ (2 : UInt8) ≠ 1 := by decide
      rw [hHeader] at hSplit hEnough ⊢
      simp only [ChunkHeader.signalType] at hSplit hEnough ⊢
      simp only [SharedSpan.createFromData, hEnough, ↓reduceIte, hTwo]
      rw [hSplit, PayloadChunkHeader.ofBytes_toBytes]
      rfl

/-! ### One pass over a fragment -/

/-- How many bytes one pass takes from a fragment: what is missing of a header, or
as much of the chunk as there is. -/
def advance (w : WireChunk) (received length : Nat) : Nat :=
  if 0 < received ∧ received < w.headerSize then w.headerSize - received
  else min (w.size - received) length

/-- The fragment cannot complete a header that is already in progress. -/
def HeaderCutShort (w : WireChunk) (received length : Nat) : Prop :=
  0 < received ∧ received < w.headerSize ∧ received + length < w.headerSize

section Round

variable {w : WireChunk} {received : Nat} {data more rest : List UInt8}
  (hReceived : received < w.size) (hData : data ≠ [])

include hReceived hData

theorem advance_pos : 0 < w.advance received data.length := by
  have hPos : 0 < data.length := List.length_pos_iff.mpr hData
  unfold advance
  split_ifs <;> omega

omit hData in
theorem received_advance_le : received + w.advance received data.length ≤ w.size := by
  have hLe := w.headerSize_le
  unfold advance
  split_ifs <;> omega

omit hData hReceived in
theorem advance_le (hCut : ¬ w.HeaderCutShort received data.length) :
    w.advance received data.length ≤ data.length := by
  unfold HeaderCutShort at hCut
  unfold advance
  split_ifs <;> omega

omit hData hReceived in
/-- The first bytes of the fragment are the next bytes of the chunk. -/
theorem take_eq_of_stream (hStream : data ++ more = w.bytes.drop received ++ rest) {count : Nat}
    (hCount : count ≤ data.length) (hFits : received + count ≤ w.size) :
    data.take count = (w.bytes.drop received).take count := by
  have hLong : count ≤ (w.bytes.drop received).length := by
    rw [List.length_drop, ← size]
    omega
  have hMore : (data ++ more).take count = data.take count := List.take_append_of_le_length hCount
  rw [← hMore, hStream, List.take_append_of_le_length hLong]

omit hReceived in
/-- A pass over a fragment at the start of a chunk takes as much of the chunk as there is. -/
theorem appendRound_fresh (hStream : data ++ more = w.bytes.drop 0 ++ rest) :
    appendRound (w.inProgress 0) data =
      .ok (w.inProgress (0 + w.advance 0 data.length), data.drop (w.advance 0 data.length)) := by
  have hSize : 0 < w.size := lt_of_lt_of_le w.headerSize_pos w.headerSize_le
  have hFits : 0 + w.advance 0 data.length ≤ w.size := received_advance_le hSize
  have hCut : ¬ w.HeaderCutShort 0 data.length := fun h => absurd h.1 (Nat.lt_irrefl 0)
  have hTake := take_eq_of_stream hStream (advance_le hCut) hFits
  have hCreate := w.createFromData_take (advance_pos hSize hData) (by omega)
  rw [List.drop_zero] at hTake hStream
  rw [← hTake] at hCreate
  have hHead : data.headD 0 = w.header.signalType := by
    obtain ⟨tail, hTail⟩ := w.bytes_eq_cons
    cases data with
    | nil => exact absurd rfl hData
    | cons b tail' =>
        rw [hTail, List.cons_append, List.cons_append, List.cons.injEq] at hStream
        exact hStream.1
  have hEmpty : w.inProgress 0 = .empty := by simp [inProgress]
  rw [Nat.zero_add, hEmpty]
  have hNothing : appendRound .empty data =
      (if data.headD 0 = 1 then do
        let size := min 4 data.length
        return (← SharedSpan.createFromData (data.take size), data.drop size)
      else if data.headD 0 = 2 then do
        let size :=
          if data.length < 6 then data.length
          else min (PayloadChunkHeader.ofBytes data).wireSize data.length
        return (← SharedSpan.createFromData (data.take size), data.drop size)
      else
        throw (.invalidArgument (str "Unhandled signal type " ++ toDecimal (data.headD 0).toNat ++
          str " in Stream::append_data"))) := rfl
  rw [hNothing, hHead]
  rcases w.headerSize_cases with ⟨h, hHeader, -, hWire⟩ | ⟨h, hHeader, -, hWire, hLong⟩
  · have hAdvance : w.advance 0 data.length = min 4 data.length := by
      simp [advance, hWire]
    rw [hAdvance] at hCreate
    simp only [hHeader, ChunkHeader.signalType, ↓reduceIte]
    rw [hCreate, hAdvance]
    rfl
  · have hAdvance : w.advance 0 data.length =
        if data.length < 6 then data.length
        else min (PayloadChunkHeader.ofBytes data).wireSize data.length := by
      simp only [advance, Nat.lt_irrefl, false_and, ↓reduceIte, Nat.sub_zero]
      split_ifs with hShort
      · exact Nat.min_eq_right (by omega)
      · rw [← PayloadChunkHeader.ofBytes_append (Nat.le_of_not_lt hShort) more, hStream, bytes, hHeader,
          List.append_assoc, PayloadChunkHeader.ofBytes_toBytes, hWire]
    have hType : (2 : UInt8) ≠ 1 := by decide
    rw [hAdvance] at hCreate
    simp only [hHeader, ChunkHeader.signalType, hType, ↓reduceIte]
    rw [hCreate, hAdvance]
    rfl

/-- A pass over a fragment that continues the stream advances the chunk in progress. -/
theorem appendRound_inProgress (hStream : data ++ more = w.bytes.drop received ++ rest)
    (hCut : ¬ w.HeaderCutShort received data.length) :
    appendRound (w.inProgress received) data =
      .ok (w.inProgress (received + w.advance received data.length),
        data.drop (w.advance received data.length)) := by
  have hFits : received + w.advance received data.length ≤ w.size := received_advance_le hReceived
  have hCount := advance_le hCut
  have hTake := take_eq_of_stream hStream hCount hFits
  by_cases hFresh : received = 0
  · -- a new chunk starts
    subst hFresh
    exact appendRound_fresh hData hStream
  · have hPos : 0 < received := Nat.pos_of_ne_zero hFresh
    have hFill := w.fillLast_inProgress hPos hFits hTake hCount
    have hStored := w.storedSize_inProgress hPos (Nat.le_of_lt hReceived)
    simp only [appendRound, hStored, w.getWireSize_inProgress hPos, w.getSignalSize_inProgress hPos,
      Outcome.ok_bind]
    by_cases hHeader : received < w.headerSize
    · have hCopy : w.advance received data.length = sizeSub w.headerSize received := by
        rw [advance, if_pos ⟨hPos, hHeader⟩, sizeSub, if_pos (Nat.le_of_lt hHeader)]
      simp only [hHeader, ↓reduceIte, or_true]
      rw [← hCopy, hFill]
      rfl
    · have hCopy : w.advance received data.length = min (sizeSub w.size received) data.length := by
        rw [advance, if_neg (by omega), sizeSub, if_pos (Nat.le_of_lt hReceived)]
      have hOpen : received ≠ w.size := Nat.ne_of_lt hReceived
      have hWide : ¬ w.size < w.headerSize := Nat.not_lt.mpr w.headerSize_le
      simp only [hHeader, hOpen, hWide, ↓reduceIte, ne_eq, not_false_eq_true, true_or]
      rw [← hCopy, hFill]
      rfl

omit hData in
/-- A fragment that ends inside the header again makes the subspan run past it. -/
theorem appendRound_cutShort (hCut : w.HeaderCutShort received data.length) :
    appendRound (w.inProgress received) data = .error (.undefined .index) := by
  obtain ⟨hPos, hHeader, hShort⟩ := hCut
  have hSize := w.size_le
  have hLe := w.headerSize_le
  have hTake : (w.bytes.take received).length = received := by
    rw [List.length_take]
    exact Nat.min_eq_left (Nat.le_of_lt hReceived)
  have hRoom : ¬ chunkSize - received < w.headerSize - received := by omega
  have hPast : data.length < w.headerSize - received := by omega
  have hFill : (w.inProgress received).fillLast w.headerSize (w.headerSize - received) data
      = .error (.undefined .index) := by
    simp only [inProgress, Nat.pos_iff_ne_zero.mp hPos, ↓reduceDIte, SharedSpan.fillLast,
      List.getLast?_singleton, hTake, hRoom, hPast, ↓reduceIte]
    rfl
  simp only [appendRound, w.storedSize_inProgress hPos (Nat.le_of_lt hReceived),
    w.getWireSize_inProgress hPos, w.getSignalSize_inProgress hPos, Outcome.ok_bind, hHeader,
    ↓reduceIte, or_true, sizeSub, Nat.le_of_lt hHeader]
  rw [hFill]
  rfl

end Round

end WireChunk

/-! ### Whole fragments and whole streams -/

/-- The bytes of a sequence of chunks. -/
def wireBytes (ws : List WireChunk) : List UInt8 := ws.flatMap WireChunk.bytes

/-- The chunk in progress with some bytes of the first of the remaining chunks received. -/
def streamState (ws : List WireChunk) (received : Nat) : SharedSpan :=
  match ws with
  | [] => .empty
  | w :: _ => w.inProgress received

/-- The offset lies inside the first of the remaining chunks. -/
def OffsetValid (ws : List WireChunk) (received : Nat) : Prop :=
  match ws with
  | [] => received = 0
  | w :: _ => received < w.size

/-- A fragment that leaves the header it starts in incomplete. -/
def CutsShort (ws : List WireChunk) (received length : Nat) : Prop :=
  match ws with
  | [] => False
  | w :: _ => w.HeaderCutShort received length

theorem streamState_zero (ws : List WireChunk) : streamState ws 0 = .empty := by
  cases ws with
  | nil => rfl
  | cons w rest => simp [streamState, WireChunk.inProgress]

theorem offsetValid_zero (ws : List WireChunk) : OffsetValid ws 0 := by
  cases ws with
  | nil => rfl
  | cons w rest => exact lt_of_lt_of_le w.headerSize_pos w.headerSize_le

theorem not_cutsShort_zero (ws : List WireChunk) (length : Nat) : ¬ CutsShort ws 0 length := by
  cases ws with
  | nil => exact id
  | cons w rest => exact fun h => absurd h.1 (Nat.lt_irrefl 0)

/-- A fragment takes the stream from one position to the position after it and
pushes the chunks that end in between. The induction is on the passes; after the
first one, no header is in progress at the start of a pass. -/
theorem appendLoop_stream {fuel : Nat} {data more : List UInt8} {ws : List WireChunk} {received : Nat}
    (hFuel : data.length ≤ fuel) (hValid : OffsetValid ws received)
    (hStream : data ++ more = (wireBytes ws).drop received)
    (hCut : data = [] ∨ ¬ CutsShort ws received data.length) :
    ∃ done rest left, ws = done ++ rest ∧ OffsetValid rest left ∧
      appendLoop fuel (streamState ws received) data = .ok (streamState rest left, done.map WireChunk.span) ∧
      more = (wireBytes rest).drop left ∧
      (wireBytes done).length + left = received + data.length := by
  induction fuel generalizing data ws received with
  | zero =>
      have hNil : data = [] := List.length_eq_zero_iff.mp (Nat.le_zero.mp hFuel)
      subst hNil
      exact ⟨[], ws, received, rfl, hValid, rfl, hStream, by simp [wireBytes]⟩
  | succ fuel ih =>
      by_cases hData : data = []
      · subst hData
        exact ⟨[], ws, received, rfl, hValid, rfl, hStream, by simp [wireBytes]⟩
      · have hNotShort := hCut.resolve_left hData
        cases ws with
        | nil =>
            simp only [wireBytes, List.flatMap_nil, List.drop_nil, List.append_eq_nil_iff] at hStream
            exact absurd hStream.1 hData
        | cons w tail =>
            have hReceived : received < w.size := hValid
            have hBytes : data ++ more = w.bytes.drop received ++ wireBytes tail := by
              rw [hStream, wireBytes, List.flatMap_cons,
                List.drop_append_of_le_length (Nat.le_of_lt hReceived)]
              rfl
            have hRound := WireChunk.appendRound_inProgress hReceived hData hBytes hNotShort
            have hPos := WireChunk.advance_pos hReceived hData
            have hFits : received + w.advance received data.length ≤ w.size :=
              WireChunk.received_advance_le hReceived
            have hCount := WireChunk.advance_le hNotShort
            generalize hAdvance : w.advance received data.length = count at *
            have hShorter : (data.drop count).length ≤ fuel := by
              rw [List.length_drop]
              omega
            have hComplete := w.chunkComplete_inProgress (by omega) hFits
            have hLoop : appendLoop (fuel + 1) (streamState (w :: tail) received) data =
                (do
                  let round ← appendRound (w.inProgress received) data
                  if ← chunkComplete round.1 then
                    let result ← appendLoop fuel .empty round.2
                    return (result.1, round.1 :: result.2)
                  else appendLoop fuel round.1 round.2) := by
              cases data with
              | nil => exact absurd rfl hData
              | cons b data => rfl
            have hRest : data.drop count ++ more = (w.bytes.drop (received + count)) ++ wireBytes tail := by
              have hDrop := congrArg (List.drop count) hBytes
              rw [List.drop_append_of_le_length hCount, List.drop_append_of_le_length (by
                rw [List.length_drop, ← WireChunk.size]
                omega), List.drop_drop] at hDrop
              exact hDrop
            by_cases hEnd : received + count = w.size
            · -- the chunk is complete: it is pushed, and the next one starts
              have hTail : data.drop count ++ more = (wireBytes tail).drop 0 := by
                rw [hRest, hEnd, WireChunk.size, List.drop_length]
                rfl
              obtain ⟨done, rest, left, rfl, hLeft, hOk, hMore, hLength⟩ := ih hShorter
                (offsetValid_zero tail) hTail (.inr (not_cutsShort_zero tail _))
              refine ⟨w :: done, rest, left, rfl, hLeft, ?_, hMore, ?_⟩
              · rw [streamState_zero] at hOk
                rw [hEnd, WireChunk.inProgress_size] at hRound hComplete
                rw [hLoop, hRound]
                simp only [Outcome.ok_bind, hComplete, decide_true, ↓reduceIte]
                rw [hOk]
                rfl
              · simp only [wireBytes, List.flatMap_cons, List.length_append] at hLength ⊢
                rw [← WireChunk.size]
                rw [List.length_drop] at hLength
                omega
            · have hNext : (wireBytes (w :: tail)).drop (received + count)
                  = w.bytes.drop (received + count) ++ wireBytes tail := by
                rw [wireBytes, List.flatMap_cons, List.drop_append_of_le_length hFits]
                rfl
              have hLater : data.drop count = [] ∨
                  ¬ CutsShort (w :: tail) (received + count) (data.drop count).length := by
                by_cases hAll : data.drop count = []
                · exact .inl hAll
                · right
                  rintro ⟨-, hInHeader, -⟩
                  have hLess : count < data.length := by
                    by_contra hNot
                    exact hAll (List.drop_eq_nil_of_le (Nat.le_of_not_lt hNot))
                  unfold WireChunk.advance at hAdvance
                  split_ifs at hAdvance <;> omega
              obtain ⟨done, rest, left, hSplit, hLeft, hOk, hMore, hLength⟩ := ih hShorter
                (show OffsetValid (w :: tail) (received + count) from by
                  show received + count < w.size
                  omega) (hRest.trans hNext.symm) hLater
              refine ⟨done, rest, left, hSplit, hLeft, ?_, hMore, ?_⟩
              · rw [hLoop, hRound]
                simp only [Outcome.ok_bind, hComplete, hEnd, decide_false, Bool.false_eq_true, ↓reduceIte]
                exact hOk
              · rw [List.length_drop] at hLength
                omega

theorem appendLoop_cutShort {fuel : Nat} {data : List UInt8} {ws : List WireChunk} {received : Nat}
    (hFuel : data.length ≤ fuel) (hValid : OffsetValid ws received) (hData : data ≠ [])
    (hCut : CutsShort ws received data.length) :
    appendLoop fuel (streamState ws received) data = .error (.undefined .index) := by
  cases ws with
  | nil => exact hCut.elim
  | cons w tail =>
      cases data with
      | nil => exact absurd rfl hData
      | cons b data =>
          cases fuel with
          | zero => simp at hFuel
          | succ fuel =>
              rw [appendLoop, streamState, WireChunk.appendRound_cutShort hValid hCut]
              rfl

/-- The fragment from `start` to `stop` of the stream begins strictly inside the
header of some chunk and ends before the end of that header. -/
def InsideOneHeader (ws : List WireChunk) (start stop : Nat) : Prop :=
  ∃ before w after, ws = before ++ w :: after ∧ (wireBytes before).length < start ∧
    stop < (wireBytes before).length + w.headerSize

/-- No fragment but an empty one begins and ends strictly inside one header. -/
def CutsAtHeaders (ws : List WireChunk) (fragments : List (List UInt8)) : Prop :=
  ∀ earlier fragment later, fragments = earlier ++ fragment :: later → fragment ≠ [] →
    ¬ InsideOneHeader ws earlier.flatten.length (earlier.flatten.length + fragment.length)

/-- Only the chunk the offset lies in can have its header cut there. -/
theorem insideOneHeader_iff {done rest : List WireChunk} {received length : Nat}
    (hValid : OffsetValid rest received) :
    InsideOneHeader (done ++ rest) ((wireBytes done).length + received)
        ((wireBytes done).length + received + length) ↔ CutsShort rest received length := by
  constructor
  · rintro ⟨before, w, after, hSplit, hStart, hStop⟩
    have hHeader := w.headerSize_le
    rcases List.append_eq_append_iff.mp hSplit with ⟨extra, rfl, hRest⟩ | ⟨extra, rfl, hAfter⟩
    · cases extra with
      | nil =>
          rw [List.nil_append] at hRest
          subst hRest
          rw [List.append_nil] at hStart hStop
          exact ⟨by omega, by omega, by omega⟩
      | cons first extra =>
          -- the chunk would start after the end of the one the offset lies in
          subst hRest
          have hInside : received < first.size := hValid
          simp only [wireBytes, List.flatMap_append, List.flatMap_cons, List.length_append] at hStart
          rw [← WireChunk.size] at hStart
          omega
    · cases extra with
      | nil =>
          rw [List.nil_append] at hAfter
          subst hAfter
          rw [List.append_nil] at hStart hStop
          exact ⟨by omega, by omega, by omega⟩
      | cons first extra =>
          -- the chunk would end before the offset
          rw [List.cons_append, List.cons.injEq] at hAfter
          have hFirst := first.headerSize_le
          rw [hAfter.1] at hStop
          simp only [wireBytes, List.flatMap_append, List.flatMap_cons, List.length_append] at hStop
          rw [← WireChunk.size] at hStop
          omega
  · intro hCut
    cases rest with
    | nil => exact hCut.elim
    | cons w after =>
        obtain ⟨hPos, -, hStop⟩ := hCut
        exact ⟨done, w, after, rfl, by omega, by omega⟩

/-- From any position of a stream, the fragments that follow push exactly the
chunks that are left, if and only if none of them is inside one header. -/
theorem feedFragments_iff {appendData : SharedSpan → List UInt8 → Outcome (SharedSpan × List SharedSpan)}
    (hAppend : ∀ partialChunk data, appendData partialChunk data = appendLoop data.length partialChunk data)
    {done rest : List WireChunk} {received : Nat} {fragments : List (List UInt8)}
    (hValid : OffsetValid rest received) (hStream : fragments.flatten = (wireBytes rest).drop received) :
    feedFragments appendData (streamState rest received) fragments
        = .ok (.empty, rest.map WireChunk.span) ↔
      ∀ earlier fragment later, fragments = earlier ++ fragment :: later → fragment ≠ [] →
        ¬ InsideOneHeader (done ++ rest) ((wireBytes done).length + received + earlier.flatten.length)
          ((wireBytes done).length + received + earlier.flatten.length + fragment.length) := by
  induction fragments generalizing done rest received with
  | nil =>
      have hEnd : rest = [] := by
        cases rest with
        | nil => rfl
        | cons w after =>
            have hInside : received < w.size := hValid
            have hLength := congrArg List.length hStream
            simp only [List.flatten_nil, List.length_nil, List.length_drop, wireBytes,
              List.flatMap_cons, List.length_append] at hLength
            rw [← WireChunk.size] at hLength
            omega
      subst hEnd
      simp [feedFragments, streamState]
  | cons fragment later ih =>
      rw [List.flatten_cons] at hStream
      by_cases hCut : fragment ≠ [] ∧ CutsShort rest received fragment.length
      · constructor
        · intro hOk
          rw [feedFragments, hAppend, appendLoop_cutShort (Nat.le_refl _) hValid hCut.1 hCut.2] at hOk
          cases hOk
        · intro hAll
          have hNot := hAll [] fragment later rfl hCut.1
          rw [List.flatten_nil, List.length_nil, Nat.add_zero, insideOneHeader_iff hValid] at hNot
          exact absurd hCut.2 hNot
      · have hFirst : fragment = [] ∨ ¬ CutsShort rest received fragment.length := by
          by_cases hNil : fragment = []
          · exact .inl hNil
          · exact .inr fun hShort => hCut ⟨hNil, hShort⟩
        obtain ⟨passed, left, offset, rfl, hLeft, hLoop, hMore, hLength⟩ :=
          appendLoop_stream (Nat.le_refl _) hValid hStream hFirst
        have hIh := @ih (done ++ passed) left offset hLeft hMore
        have hFeed : feedFragments appendData (streamState (passed ++ left) received) (fragment :: later)
              = .ok (.empty, (passed ++ left).map WireChunk.span) ↔
            feedFragments appendData (streamState left offset) later
              = .ok (.empty, left.map WireChunk.span) := by
          rw [feedFragments, hAppend, hLoop]
          cases hRest : feedFragments appendData (streamState left offset) later <;>
            simp [hRest, Prod.ext_iff]
        have hPosition : (wireBytes (done ++ passed)).length + offset
            = (wireBytes done).length + received + fragment.length := by
          simp only [wireBytes, List.flatMap_append, List.length_append] at hLength ⊢
          omega
        rw [hFeed, hIh, hPosition, List.append_assoc]
        constructor
        · intro hLater earlier f rest' hSplit hNe
          cases earlier with
          | nil =>
              rw [List.nil_append, List.cons.injEq] at hSplit
              rw [List.flatten_nil, List.length_nil, Nat.add_zero, insideOneHeader_iff hValid, ← hSplit.1]
              exact fun hShort => hCut ⟨hSplit.1 ▸ hNe, hShort⟩
          | cons g earlier =>
              rw [List.cons_append, List.cons.injEq] at hSplit
              rw [List.flatten_cons, List.length_append, ← hSplit.1, ← Nat.add_assoc]
              exact hLater earlier f rest' hSplit.2 hNe
        · intro hAll earlier f rest' hSplit hNe
          have hNot := hAll (fragment :: earlier) f rest' (by rw [hSplit, List.cons_append]) hNe
          rwa [List.flatten_cons, List.length_append, ← Nat.add_assoc] at hNot

/-- For every stream of well-formed chunks and every way of cutting it, the
listener's and the connector's `append_data` push exactly these chunks, if and
only if no non-empty fragment begins and ends strictly inside one header. -/
theorem appendData_reassembles_iff (ws : List WireChunk) (fragments : List (List UInt8))
    (hStream : fragments.flatten = wireBytes ws) :
    (feedFragments Stream.appendData .empty fragments = .ok (.empty, ws.map WireChunk.span) ↔
        CutsAtHeaders ws fragments) ∧
      (feedFragments (ClientStream.appendData true) .empty fragments
          = .ok (.empty, ws.map WireChunk.span) ↔ CutsAtHeaders ws fragments) := by
  have hZero := offsetValid_zero ws
  have hDrop : fragments.flatten = (wireBytes ws).drop 0 := hStream
  have hServer := @feedFragments_iff Stream.appendData (fun _ _ => rfl) [] ws 0 fragments
    hZero hDrop
  have hClient := @feedFragments_iff (ClientStream.appendData true) (fun _ _ => rfl) [] ws 0
    fragments hZero hDrop
  simp only [streamState_zero, wireBytes, List.flatMap_nil, List.length_nil, Nat.zero_add,
    List.nil_append] at hServer hClient
  exact ⟨hServer, hClient⟩

/-- A signal chunk that closes a stream. -/
def closeSignal : WireChunk := ⟨.signal ⟨0, 1⟩, [], rfl⟩

/-- Its header in two halves. -/
theorem appendData_reassembles_iff_halves :
    (feedFragments Stream.appendData .empty [[1, 1], [0, 0]] = .ok (.empty, [closeSignal.span]) ↔
        CutsAtHeaders [closeSignal] [[1, 1], [0, 0]]) ∧
      (feedFragments (ClientStream.appendData true) .empty [[1, 1], [0, 0]]
          = .ok (.empty, [closeSignal.span]) ↔ CutsAtHeaders [closeSignal] [[1, 1], [0, 0]]) :=
  appendData_reassembles_iff [closeSignal] [[1, 1], [0, 0]] rfl

/-- Its header in three fragments: the second one is too short. -/
theorem appendData_fails_on_thirds :
    [[1], [1], [0, 0]].flatten = wireBytes [closeSignal] ∧
      feedFragments Stream.appendData .empty [[1], [1], [0, 0]] = .error (.undefined .index) ∧
      feedFragments (ClientStream.appendData true) .empty [[1], [1], [0, 0]]
        = .error (.undefined .index) :=
  ⟨rfl, rfl, rfl⟩

end Wwatp
