import Wwatp.Cxx.Blocks
import Wwatp.Cxx.Numbers
import Wwatp.Cxx.Outcome

/-! `shared_span`: a list of fixed-size chunks with the used range of each.
The bytes of a chunk before its used range hold the header it was made with. -/
namespace Wwatp

open Cxx

/-- `UDPChunk::chunk_size`. -/
def chunkSize : Nat := 1200

/-- `payload_chunk_header`, less its constant `signal_type`. -/
structure PayloadChunkHeader where
  requestId : UInt16
  signal : UInt8
  dataLength : UInt16
  deriving DecidableEq, Repr

/-- `signal_chunk_header`, less its constant `signal_type`. -/
structure SignalChunkHeader where
  requestId : UInt16
  signal : UInt8
  deriving DecidableEq, Repr

/-- The header types a span can be made with. -/
inductive ChunkHeader
  | noChunk
  | signal (header : SignalChunkHeader)
  | payload (header : PayloadChunkHeader)
  deriving DecidableEq, Repr

namespace ChunkHeader

/-- `GLOBAL_SIGNAL_TYPE` of the header type. -/
def signalType : ChunkHeader → UInt8
  | noChunk => 0
  | signal _ => 1
  | payload _ => 2

/-- The packed bytes of the header. -/
def toBytes : ChunkHeader → List UInt8
  | noChunk => [0]
  | signal h => [1, h.signal] ++ leBytes 2 h.requestId.toNat
  | payload h => [2, h.signal] ++ leBytes 2 h.requestId.toNat ++ leBytes 2 h.dataLength.toNat

/-- `sizeof` of the header type. -/
def size : ChunkHeader → Nat
  | noChunk => 1
  | signal _ => 4
  | payload _ => 6

@[simp] theorem toBytes_length (h : ChunkHeader) : h.toBytes.length = h.size := by
  cases h <;> simp [toBytes, size]

theorem size_pos (h : ChunkHeader) : 0 < h.size := by
  cases h <;> simp [size]

theorem size_le (h : ChunkHeader) : h.size ≤ 6 := by
  cases h <;> simp [size]

end ChunkHeader

/-- One underlying chunk: the bytes written so far and where its used range starts. -/
@[ext] structure Chunk where
  data : List UInt8
  first : Nat
  first_pos : 0 < first
  first_le : first ≤ data.length
  fits : data.length ≤ chunkSize
  deriving DecidableEq, Repr

namespace Chunk

/-- The bytes of the used range. -/
def body (c : Chunk) : List UInt8 := c.data.drop c.first

/-- The length of the used range. -/
def size (c : Chunk) : Nat := c.data.length - c.first

/-- A fresh chunk: a header and as much of the data as fits behind it. -/
def ofHeader (h : ChunkHeader) (data : List UInt8) : Chunk where
  data := h.toBytes ++ data.take (chunkSize - h.size)
  first := h.size
  first_pos := h.size_pos
  first_le := by simp
  fits := by
    have hSize := h.size_le
    simp only [List.length_append, ChunkHeader.toBytes_length, List.length_take, chunkSize]
    omega

/-- The used range moved to `start` and cut to `length` bytes. -/
def sub (c : Chunk) (start length : Nat) : Chunk where
  data := c.data.take (c.first + start + length)
  first := min (c.first + start) (c.data.take (c.first + start + length)).length
  first_pos := by
    have hPos := c.first_pos
    have hLe := c.first_le
    simp only [List.length_take]
    omega
  first_le := Nat.min_le_right _ _
  fits := le_trans (by simp) c.fits

@[simp] theorem body_length (c : Chunk) : c.body.length = c.size := by
  simp [body, size]

theorem size_lt (c : Chunk) : c.size < chunkSize := by
  have hPos := c.first_pos
  have hFits := c.fits
  simp only [size]
  unfold chunkSize at *
  omega

@[simp] theorem body_ofHeader (h : ChunkHeader) (data : List UInt8) :
    (ofHeader h data).body = data.take (chunkSize - h.size) := by
  simp only [body, ofHeader]
  rw [← h.toBytes_length, List.drop_left]

theorem body_sub {c : Chunk} {start length : Nat} (h : start + length ≤ c.size) :
    (c.sub start length).body = (c.body.drop start).take length := by
  have hLe := c.first_le
  simp only [size] at h
  have hFirst : min (c.first + start) (c.data.take (c.first + start + length)).length
      = c.first + start := by
    simp only [List.length_take]
    omega
  simp only [body, sub]
  rw [hFirst, List.drop_take, List.drop_drop]
  congr 1
  omega

/-- A chunk cut to its whole used range is unchanged. -/
theorem sub_zero_size (c : Chunk) : c.sub 0 c.size = c := by
  obtain ⟨data, first, hPos, hLe, hFits⟩ := c
  simp only [sub, size, Nat.add_zero, Chunk.mk.injEq]
  have hTake : data.take (first + (data.length - first)) = data :=
    List.take_of_length_le (by omega)
  rw [hTake]
  exact ⟨rfl, by omega⟩

end Chunk

/-- `shared_span<>`. -/
structure SharedSpan where
  chunks : List Chunk
  signalType : UInt8
  deriving DecidableEq, Repr

namespace SharedSpan

/-- A span without chunks: `shared_span(global_no_chunk_header, false)`. -/
def empty : SharedSpan := ⟨[], 0⟩

/-- The constructor from a header and data. The first chunk carries the header;
what does not fit goes into further chunks with a `no_chunk_header` each. -/
def ofSignal (signal : ChunkHeader) (data : List UInt8) : SharedSpan where
  chunks := Chunk.ofHeader signal data ::
    ((data.drop (chunkSize - signal.size)).blocks (chunkSize - 1)).map (Chunk.ofHeader .noChunk)
  signalType := signal.signalType

/-- The constructor from a range of spans: their chunks one after another, under
the signal type of the first span. -/
def concat : List SharedSpan → SharedSpan
  | [] => empty
  | s :: rest => ⟨(s :: rest).flatMap chunks, s.signalType⟩

/-- The bytes from `begin<uint8_t>()` to `end<uint8_t>()`. -/
def bytes (s : SharedSpan) : List UInt8 := s.chunks.flatMap Chunk.body

def size (s : SharedSpan) : Nat := (s.chunks.map Chunk.size).sum

/-- `get_signal_size`. -/
def getSignalSize (s : SharedSpan) : Outcome Nat :=
  if s.chunks = [] then .ok 0
  else if s.signalType = 0 then .ok 1
  else if s.signalType = 1 then .ok 4
  else if s.signalType = 2 then .ok 6
  else throw (.invalidArgument (str "Unknown signal type"))

/-- The loop of `restrict`. The first argument holds the chunks before
`current_chunk`; a chunk that the range does not reach makes the loop erase the
chunk at the front of the whole vector. -/
def restrictLoop : List Chunk → List Chunk → Nat → Nat → List Chunk
  | done, [], _, _ => done
  | done, c :: todo, start, length =>
      if start + length ≤ c.size then done ++ [c.sub start length]
      else if c.size ≤ start then restrictLoop (done ++ [c]).tail todo (start - c.size) length
      else
        restrictLoop (done ++ [c.sub start (c.size - start)]) todo 0 (length - (c.size - start))

def restrict (s : SharedSpan) (start length : Nat) : SharedSpan :=
  ⟨restrictLoop [] s.chunks start length, s.signalType⟩

/-- `flatten_with_signal`: every chunk becomes a span of its own under the given
header with that chunk's length. -/
def flattenWithSignal (s : SharedSpan) (signal : PayloadChunkHeader) : List SharedSpan :=
  s.chunks.map fun c => ofSignal (.payload { signal with dataLength := .ofNat c.size }) c.body

/-- `pod_from_chunk` after the first chunk has been entered: the bytes of one
value, taken from the chunk bodies in turn. Past the last chunk the lookup of the
next chunk's range throws. -/
def podFromChunk : Nat → List (List UInt8) → Outcome (List UInt8)
  | _, [] => throw .outOfRange
  | length, body :: rest =>
      if length ≤ body.length then .ok (body.take length)
      else do
        let more ← podFromChunk (length - body.length) rest
        return body ++ more

/-- `at<PODType>` without a start position. -/
def podAt (s : SharedSpan) (length : Nat) : Outcome (List UInt8) :=
  if s.chunks = [] then throw (.undefined .index)
  else podFromChunk length (s.chunks.map Chunk.body)

/-- `at<PODType>` from a byte position in the first chunk's buffer. -/
def podAtOffset (s : SharedSpan) (length offset : Nat) : Outcome (List UInt8) :=
  match s.chunks with
  | [] => throw (.undefined .index)
  | c :: rest =>
      if c.data.length < offset then throw (.undefined .index)
      else podFromChunk length (c.data.drop offset :: rest.map Chunk.body)

theorem size_eq_bytes_length (s : SharedSpan) : s.size = s.bytes.length := by
  simp only [size, bytes, List.length_flatMap]
  congr 1
  exact List.map_congr_left fun c _ => (Chunk.body_length c).symm

@[simp] theorem bytes_empty : empty.bytes = [] := rfl

/-- The constructor stores exactly the data it is given. -/
@[simp] theorem bytes_ofSignal (signal : ChunkHeader) (data : List UInt8) :
    (ofSignal signal data).bytes = data := by
  have hRest : ((data.drop (chunkSize - signal.size)).blocks (chunkSize - 1)).flatMap
      (fun b => (Chunk.ofHeader .noChunk b).body) = data.drop (chunkSize - signal.size) := by
    conv_rhs => rw [← List.blocks_flatten (show 0 < chunkSize - 1 by decide)
      (data.drop (chunkSize - signal.size))]
    rw [← List.flatMap_id]
    apply List.flatMap_congr
    intro b hb
    rw [Chunk.body_ofHeader]
    exact List.take_of_length_le (List.length_of_mem_blocks (by decide) hb).2
  simp only [bytes, ofSignal, List.flatMap_cons, List.flatMap_map]
  rw [hRest, Chunk.body_ofHeader, List.take_append_drop]

/-- Data that fits behind the header takes a single chunk. -/
theorem ofSignal_of_le {signal : ChunkHeader} {data : List UInt8}
    (h : data.length ≤ chunkSize - signal.size) :
    ofSignal signal data = ⟨[Chunk.ofHeader signal data], signal.signalType⟩ := by
  simp [ofSignal, List.drop_eq_nil_of_le h]

theorem bytes_concat (spans : List SharedSpan) : (concat spans).bytes = spans.flatMap bytes := by
  cases spans with
  | nil => rfl
  | cons s rest =>
      simp only [concat, bytes, List.flatMap_assoc]
      rfl

/-- Re-wrapping keeps every byte. -/
theorem bytes_flattenWithSignal (s : SharedSpan) (signal : PayloadChunkHeader) :
    (s.flattenWithSignal signal).flatMap bytes = s.bytes := by
  simp only [flattenWithSignal, List.flatMap_map, bytes_ofSignal]
  rfl

/-- From its start on, `restrict` keeps every chunk that is not empty. -/
theorem restrictLoop_zero {done todo : List Chunk} {length : Nat} (hPos : ∀ c ∈ todo, 0 < c.size)
    (hLength : (todo.map Chunk.size).sum < length) :
    restrictLoop done todo 0 length = done ++ todo := by
  induction todo generalizing done length with
  | nil => rw [restrictLoop, List.append_nil]
  | cons c todo ih =>
      have hc := hPos c List.mem_cons_self
      rw [List.map_cons, List.sum_cons] at hLength
      rw [restrictLoop, if_neg (by omega), if_neg (by omega), Nat.sub_zero, c.sub_zero_size,
        ih (fun d hd => hPos d (List.mem_cons_of_mem _ hd)) (by omega), List.append_assoc,
        List.singleton_append]

/-- Dropping bytes of the first chunk, with a range that reaches past the end. -/
theorem bytes_restrict_size {s : SharedSpan} {c : Chunk} {rest : List Chunk} {start : Nat}
    (hChunks : s.chunks = c :: rest) (hStart : 0 < start) (hFirst : start ≤ c.size)
    (hPos : ∀ d ∈ rest, 0 < d.size) : (s.restrict start s.size).bytes = s.bytes.drop start := by
  have hSize : s.size = c.size + (rest.map Chunk.size).sum := by
    rw [size, hChunks, List.map_cons, List.sum_cons]
  have hBytes : s.bytes.drop start = c.body.drop start ++ rest.flatMap Chunk.body := by
    rw [bytes, hChunks, List.flatMap_cons,
      List.drop_append_of_le_length (by rw [Chunk.body_length]; exact hFirst)]
  simp only [bytes, restrict, hChunks] at hBytes ⊢
  rw [restrictLoop, if_neg (by omega), hBytes]
  rcases Nat.lt_or_ge start c.size with hInside | hAll
  · rw [if_neg (by omega), List.nil_append, restrictLoop_zero hPos (by omega), List.singleton_append,
      List.flatMap_cons, Chunk.body_sub (by omega),
      List.take_of_length_le (by rw [List.length_drop, Chunk.body_length])]
  · -- the first chunk holds nothing behind the start and is erased
    rw [if_pos hAll, List.nil_append, List.tail_cons, Nat.sub_eq_zero_of_le hFirst,
      restrictLoop_zero hPos (by omega), List.nil_append,
      List.drop_eq_nil_of_le (by rw [Chunk.body_length]; exact hAll), List.nil_append]

theorem length_flattenWithSignal (s : SharedSpan) (signal : PayloadChunkHeader) :
    (s.flattenWithSignal signal).length = s.chunks.length := by
  simp [flattenWithSignal]

end SharedSpan
end Wwatp
