import Wwatp.Transport.SharedSpan

/-! Reassembling chunks from the fragments of a stream. A stream keeps the chunk
it is in the middle of as a span whose used range starts where the header bytes
received so far end. -/
namespace Wwatp

open Cxx

/-- The header fields in the first six bytes of a payload chunk. -/
def PayloadChunkHeader.ofBytes (bytes : List UInt8) : PayloadChunkHeader where
  signal := bytes.getD 1 0
  requestId := .ofNat (leValue ((bytes.drop 2).take 2))
  dataLength := .ofNat (leValue ((bytes.drop 4).take 2))

/-- The header fields in the first four bytes of a signal chunk. -/
def SignalChunkHeader.ofBytes (bytes : List UInt8) : SignalChunkHeader where
  signal := bytes.getD 1 0
  requestId := .ofNat (leValue ((bytes.drop 2).take 2))

/-- Reading back the bytes of a header. -/
theorem PayloadChunkHeader.ofBytes_toBytes (h : PayloadChunkHeader) (rest : List UInt8) :
    ofBytes ((ChunkHeader.payload h).toBytes ++ rest) = h := by
  have hId : leValue (leBytes 2 h.requestId.toNat) = h.requestId.toNat :=
    leValue_leBytes (by simpa using h.requestId.toNat_lt)
  have hLength : leValue (leBytes 2 h.dataLength.toNat) = h.dataLength.toNat :=
    leValue_leBytes (by simpa using h.dataLength.toNat_lt)
  calc ofBytes ((ChunkHeader.payload h).toBytes ++ rest)
      = ⟨.ofNat (leValue (leBytes 2 h.requestId.toNat)), h.signal,
          .ofNat (leValue (leBytes 2 h.dataLength.toNat))⟩ := rfl
    _ = h := by rw [hId, hLength, UInt16.ofNat_toNat, UInt16.ofNat_toNat]

/-- The header fields do not depend on what follows the header. -/
theorem PayloadChunkHeader.ofBytes_append {bytes : List UInt8} (h : 6 ≤ bytes.length)
    (more : List UInt8) : ofBytes (bytes ++ more) = ofBytes bytes := by
  have hDrop (k : Nat) (hk : k ≤ 4) : ((bytes ++ more).drop k).take 2 = (bytes.drop k).take 2 := by
    rw [List.drop_append_of_le_length (by omega),
      List.take_append_of_le_length (by rw [List.length_drop]; omega)]
  have hGet : (bytes ++ more).getD 1 0 = bytes.getD 1 0 := by
    simp only [List.getD_eq_getElem?_getD]
    rw [List.getElem?_append_left (by omega)]
  simp only [ofBytes, hGet, hDrop 2 (by omega), hDrop 4 (by omega)]

theorem SignalChunkHeader.ofBytes_toBytes (h : SignalChunkHeader) (rest : List UInt8) :
    ofBytes ((ChunkHeader.signal h).toBytes ++ rest) = h := by
  have hId : leValue (leBytes 2 h.requestId.toNat) = h.requestId.toNat :=
    leValue_leBytes (by simpa using h.requestId.toNat_lt)
  calc ofBytes ((ChunkHeader.signal h).toBytes ++ rest)
      = ⟨.ofNat (leValue (leBytes 2 h.requestId.toNat)), h.signal⟩ := rfl
    _ = h := by rw [hId, UInt16.ofNat_toNat]

/-- `payload_chunk_header::get_wire_size`. -/
def PayloadChunkHeader.wireSize (h : PayloadChunkHeader) : Nat := 6 + h.dataLength.toNat

namespace SharedSpan

/-- `stored_size`: headers and data together. -/
def storedSize (s : SharedSpan) : Nat := (s.chunks.map fun c => c.data.length).sum

/-- `get_wire_size`: the size the header announces, or what there is of an
incomplete header. -/
def getWireSize (s : SharedSpan) : Outcome Nat :=
  match s.chunks with
  | [] => .ok 0
  | c :: _ =>
      if s.signalType = 0 then
        throw (.invalidArgument (str "No chunk header should not exist on the wire."))
      else if s.signalType = 1 then .ok (if c.first < 4 then c.first else 4)
      else if s.signalType = 2 then
        .ok (if c.first < 6 then c.first else (PayloadChunkHeader.ofBytes c.data).wireSize)
      else throw (.invalidArgument (str "Wire size of signal not implemented."))

/-- A span that holds only the first bytes of a header. -/
def partialHeader (b : UInt8) (rest : List UInt8) : SharedSpan where
  chunks := [{
    data := (b :: rest).take chunkSize
    first := ((b :: rest).take chunkSize).length
    first_pos := by simp [chunkSize]
    first_le := Nat.le_refl _
    fits := by simp }]
  signalType := b

/-- `create_from_data`. -/
def createFromData : List UInt8 → Outcome SharedSpan
  | [] => throw (.undefined .index)
  | b :: rest =>
      let data := b :: rest
      if b = 0 then .ok (ofSignal .noChunk rest)
      else if b = 1 then
        .ok (if 4 ≤ data.length then ofSignal (.signal (.ofBytes data)) (data.drop 4)
          else partialHeader b rest)
      else if b = 2 then
        .ok (if 6 ≤ data.length then ofSignal (.payload (.ofBytes data)) (data.drop 6)
          else partialHeader b rest)
      else throw (.invalidArgument (str "Unknown signal type"))

end SharedSpan

/-- A chunk with more bytes behind those it stores. Bytes that complete its
header move the start of the used range. -/
def Chunk.extend (c : Chunk) (signalSize : Nat) (bytes : List UInt8)
    (h : c.data.length + bytes.length ≤ chunkSize) : Chunk where
  data := c.data ++ bytes
  first := if c.first < signalSize then c.first + min (signalSize - c.first) bytes.length else c.first
  first_pos := by
    have hPos := c.first_pos
    split_ifs <;> omega
  first_le := by
    have hLe := c.first_le
    rw [List.length_append]
    split_ifs <;> omega
  fits := by rwa [List.length_append]

namespace SharedSpan

/-- `expand_use` by `copyBytes`, the subspan of that many bytes of the data, and
`copy_span` of it to the position `expand_use` returned. -/
def fillLast (s : SharedSpan) (signalSize copyBytes : Nat) (data : List UInt8) : Outcome SharedSpan :=
  match s.chunks.getLast? with
  | none => throw (.invalidArgument (str "Cannot expand use on empty shared_span"))
  | some c =>
      if chunkSize - c.data.length < copyBytes then
        throw (.invalidArgument (str "Not enough space in the last chunk to expand use"))
      else if data.length < copyBytes then throw (.undefined .index)
      else if h : c.data.length + (data.take copyBytes).length ≤ chunkSize then
        .ok { s with chunks := s.chunks.dropLast ++ [c.extend signalSize (data.take copyBytes) h] }
      else throw (.undefined .index)

end SharedSpan

/-- One pass of `append_data`: complete the chunk in progress or start a new one.
Returns the chunk in progress and the data that is left. -/
def appendRound (partialChunk : SharedSpan) (data : List UInt8) : Outcome (SharedSpan × List UInt8) := do
  let storedSize := partialChunk.storedSize
  let wireSize ← partialChunk.getWireSize
  let signalSize ← partialChunk.getSignalSize
  if storedSize ≠ wireSize ∨ wireSize < signalSize then
    let copyBytes :=
      if wireSize < signalSize then sizeSub signalSize storedSize
      else min (sizeSub wireSize storedSize) data.length
    let filled ← partialChunk.fillLast signalSize copyBytes data
    return (filled, data.drop copyBytes)
  else
    let signalType := data.headD 0
    if signalType = 1 then
      let size := min 4 data.length
      return (← SharedSpan.createFromData (data.take size), data.drop size)
    else if signalType = 2 then
      let size :=
        if data.length < 6 then data.length
        else min (PayloadChunkHeader.ofBytes data).wireSize data.length
      return (← SharedSpan.createFromData (data.take size), data.drop size)
    else
      throw (.invalidArgument (str "Unhandled signal type " ++ toDecimal signalType.toNat ++
        str " in Stream::append_data"))

/-- Whether the chunk in progress is complete. -/
def chunkComplete (partialChunk : SharedSpan) : Outcome Bool := do
  let wireSize ← partialChunk.getWireSize
  let signalSize ← partialChunk.getSignalSize
  return partialChunk.storedSize = wireSize && signalSize ≤ wireSize

/-- The recursion of `append_data` over the data that is left; each pass uses up
at least one byte. Returns the chunk in progress and the chunks pushed. -/
def appendLoop : Nat → SharedSpan → List UInt8 → Outcome (SharedSpan × List SharedSpan)
  | 0, partialChunk, _ => .ok (partialChunk, [])
  | _ + 1, partialChunk, [] => .ok (partialChunk, [])
  | fuel + 1, partialChunk, b :: rest => do
      let (current, remaining) ← appendRound partialChunk (b :: rest)
      if ← chunkComplete current then
        let (last, pushed) ← appendLoop fuel .empty remaining
        return (last, current :: pushed)
      else appendLoop fuel current remaining

/-- `Stream::append_data` of the listener. -/
def Stream.appendData (partialChunk : SharedSpan) (data : List UInt8) :
    Outcome (SharedSpan × List SharedSpan) :=
  appendLoop data.length partialChunk data

/-- `ClientStream::append_data` of the connector. Data of other requests than
WWATP ones is handed on as it is. -/
def ClientStream.appendData (isWWATP : Bool) (partialChunk : SharedSpan) (data : List UInt8) :
    Outcome (SharedSpan × List SharedSpan) :=
  if isWWATP then appendLoop data.length partialChunk data
  else .ok (partialChunk, [SharedSpan.ofSignal .noChunk data])

/-- Handing a stream's fragments to `append_data` in turn. -/
def feedFragments (appendData : SharedSpan → List UInt8 → Outcome (SharedSpan × List SharedSpan))
    (partialChunk : SharedSpan) : List (List UInt8) → Outcome (SharedSpan × List SharedSpan)
  | [] => .ok (partialChunk, [])
  | fragment :: rest => do
      let (current, pushed) ← appendData partialChunk fragment
      let (last, more) ← feedFragments appendData current rest
      return (last, pushed ++ more)

end Wwatp
