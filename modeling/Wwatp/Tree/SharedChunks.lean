import Wwatp.Tree.Properties

/-! The operations on properties with the memory of the chunks. A span shares its chunks with the spans it was
made of, and a value that is written in place is written to all of them. -/
namespace Wwatp

open Cxx

namespace Chunk

/-- Bytes written over those of the chunk, as far as it has them. -/
def overwrite (c : Chunk) (position : ℕ) (bytes : List UInt8) : Chunk where
  data := c.data.take position ++ bytes.take (c.data.length - position) ++ c.data.drop (position + bytes.length)
  first := c.first
  first_pos := c.first_pos
  first_le := by
    have hLe := c.first_le
    simp only [List.length_append, List.length_take, List.length_drop]
    omega
  fits := by
    have hFits := c.fits
    simp only [List.length_append, List.length_take, List.length_drop]
    omega

theorem length_overwrite (c : Chunk) (position : ℕ) (bytes : List UInt8) :
    (c.overwrite position bytes).data.length = c.data.length := by
  simp only [overwrite, List.length_append, List.length_take, List.length_drop]
  omega

@[simp] theorem size_overwrite (c : Chunk) (position : ℕ) (bytes : List UInt8) : (c.overwrite position bytes).size = c.size := by
  rw [size, length_overwrite]
  rfl

/-- The data behind a header, written over. -/
theorem overwrite_ofHeader (h : ChunkHeader) {data value : List UInt8} (hLength : value.length = data.length)
    (hFits : data.length ≤ chunkSize - h.size) :
    (ofHeader h data).overwrite (ofHeader h data).first value = ofHeader h value := by
  have hHeader := h.toBytes_length
  ext1
  · simp only [overwrite, ofHeader, List.take_of_length_le hFits, List.take_of_length_le (hLength.trans_le hFits)]
    rw [← hHeader, List.take_left, List.length_append, Nat.add_sub_cancel_left, List.take_of_length_le (Nat.le_of_eq hLength),
      List.drop_eq_nil_of_le (by rw [List.length_append]; omega), List.append_nil]
  · rfl

end Chunk

/-- A chunk of a span with its address. -/
structure SharedChunk where
  address : ℕ
  chunk : Chunk
  deriving DecidableEq

/-- Bytes that are written to a chunk in memory. -/
structure ChunkWrite where
  address : ℕ
  position : ℕ
  bytes : List UInt8

namespace SharedChunk

def size (c : SharedChunk) : ℕ := c.chunk.size

def sub (c : SharedChunk) (start length : ℕ) : SharedChunk := ⟨c.address, c.chunk.sub start length⟩

def written (write : ChunkWrite) (c : SharedChunk) : SharedChunk :=
  if c.address = write.address then ⟨c.address, c.chunk.overwrite write.position write.bytes⟩ else c

theorem sub_zero_size (c : SharedChunk) : c.sub 0 c.size = c := by
  rw [sub, size, c.chunk.sub_zero_size]

theorem size_sub_zero (c : SharedChunk) (start : ℕ) (h : start ≤ c.size) : (c.sub start 0).size = 0 :=
  SharedSpan.size_sub_zero c.chunk start h

@[simp] theorem address_written (write : ChunkWrite) (c : SharedChunk) : (c.written write).address = c.address := by
  rw [written]
  split_ifs <;> rfl

@[simp] theorem size_written (write : ChunkWrite) (c : SharedChunk) : (c.written write).size = c.size := by
  rw [written]
  split_ifs
  · exact Chunk.size_overwrite ..
  · rfl

theorem written_of_ne {write : ChunkWrite} {c : SharedChunk} (h : c.address ≠ write.address) : c.written write = c :=
  if_neg h

/-- The loop of `copy_type`, which writes to one chunk after another from an offset in the first. -/
def copyLoop (type : Str) : List SharedChunk → ℕ → List UInt8 → Outcome (List ChunkWrite)
  | [], _, _ => throw (.invalidArgument (str "Not enough chunks to copy the data type " ++ type))
  | c :: rest, byteOffset, value =>
    let toCopy := min value.length (sizeSub (c.size + c.chunk.first) byteOffset)
    if toCopy = value.length then .ok [⟨c.address, byteOffset, value⟩]
    else do
      let next := match rest with
        | [] => byteOffset
        | d :: _ => d.chunk.first
      let writes ← copyLoop type rest next (value.drop toCopy)
      return ⟨c.address, byteOffset, value.take toCopy⟩ :: writes

end SharedChunk

/-- A span that shares its chunks. -/
structure HeldSpan where
  chunks : List SharedChunk
  signalType : UInt8
  deriving DecidableEq

namespace HeldSpan

/-- What the span holds. -/
def span (s : HeldSpan) : SharedSpan := ⟨s.chunks.map SharedChunk.chunk, s.signalType⟩

def addresses (s : HeldSpan) : List ℕ := s.chunks.map SharedChunk.address

def size (s : HeldSpan) : ℕ := totalSize SharedChunk.size s.chunks

/-- The constructor from a header and data; `pool` gives the addresses of the chunks that it allocates. -/
def ofSignal (pool : ℕ → ℕ) (signal : ChunkHeader) (data : List UInt8) : HeldSpan where
  chunks := (SharedSpan.ofSignal signal data).chunks.mapIdx fun i c => ⟨pool i, c⟩
  signalType := signal.signalType

def concat : List HeldSpan → HeldSpan
  | [] => ⟨[], 0⟩
  | s :: rest => ⟨(s :: rest).flatMap chunks, s.signalType⟩

def restrict (s : HeldSpan) (start length : ℕ) : HeldSpan :=
  ⟨cut SharedChunk.size SharedChunk.sub [] s.chunks start length, s.signalType⟩

def compress (s : HeldSpan) : HeldSpan := { s with chunks := nonemptyPieces SharedChunk.size s.chunks }

/-- `copy_type`. -/
def copyType (s : HeldSpan) (type : Str) (value : List UInt8) : Outcome (List ChunkWrite) :=
  match s.chunks with
  | [] => throw (.undefined .index)
  | c :: _ => SharedChunk.copyLoop type s.chunks c.chunk.first value

/-- `begin<PODType>().set(value)`. The index of the chunk is used once more in the chunks from there on. -/
def setBegin (s : HeldSpan) (type : Str) (value : List UInt8) : Outcome (List ChunkWrite) :=
  let chunkIndex := s.chunks.findIdx fun c => c.size ≠ 0
  match s.chunks.drop chunkIndex with
  | [] => throw (.undefined .index)
  | c :: rest => SharedChunk.copyLoop type ((c :: rest).drop chunkIndex) c.chunk.first value

/-- The span after some writes to memory. -/
def written (writes : List ChunkWrite) (s : HeldSpan) : HeldSpan :=
  { s with chunks := s.chunks.map fun c => writes.foldl (fun c write => c.written write) c }

theorem size_span (s : HeldSpan) : s.span.size = s.size := by
  rw [SharedSpan.size, size, totalSize, span, List.map_map]
  rfl

/-- Sharing does not change what a part of a span is. -/
theorem span_restrict (s : HeldSpan) (start length : ℕ) : (s.restrict start length).span = s.span.restrict start length := by
  rw [span, restrict, SharedSpan.restrict, span, SharedSpan.restrictLoop_eq_cut]
  congr 1
  exact map_cut (fun _ => rfl) (fun _ _ _ => rfl) [] s.chunks start length

theorem span_concat (spans : List HeldSpan) : (concat spans).span = SharedSpan.concat (spans.map span) := by
  cases spans with
  | nil => rfl
  | cons s rest =>
      simp only [concat, span, SharedSpan.concat, List.map_cons, List.flatMap_cons, List.map_append, List.map_flatMap,
        List.flatMap_map]

theorem span_compress (s : HeldSpan) : s.compress.span = s.span.compress := by
  simp only [compress, span, SharedSpan.compress, nonemptyPieces, List.filter_map]
  rfl

theorem span_ofSignal (pool : ℕ → ℕ) (signal : ChunkHeader) (data : List UInt8) :
    (ofSignal pool signal data).span = SharedSpan.ofSignal signal data := by
  have hChunks : (ofSignal pool signal data).chunks.map SharedChunk.chunk = (SharedSpan.ofSignal signal data).chunks := by
    apply List.ext_getElem
    · simp [ofSignal]
    · intro i hi hi'
      simp [ofSignal]
  rw [span, hChunks]
  rfl

/-- The chunks that are allocated, in memory that was free. -/
theorem mem_addresses_ofSignal {pool : ℕ → ℕ} {signal : ChunkHeader} {data : List UInt8} {address : ℕ}
    (h : address ∈ (ofSignal pool signal data).addresses) :
    ∃ i < (ofSignal pool signal data).chunks.length, address = pool i := by
  obtain ⟨c, hc, rfl⟩ := List.mem_map.mp h
  obtain ⟨i, hi, rfl⟩ := List.mem_mapIdx.mp hc
  exact ⟨i, by simpa [ofSignal] using hi, rfl⟩

/-- A write to memory that the span does not share leaves it as it is. -/
theorem written_of_not_mem {s : HeldSpan} {write : ChunkWrite} (h : write.address ∉ s.addresses) : s.written [write] = s := by
  have hChunks : s.chunks.map (SharedChunk.written write) = s.chunks := by
    conv_rhs => rw [← List.map_id s.chunks]
    apply List.map_congr_left
    intro c hc
    exact SharedChunk.written_of_ne fun hAddress => h (List.mem_map.mpr ⟨c, hc, hAddress⟩)
  rw [written]
  simp only [List.foldl_cons, List.foldl_nil]
  rw [hChunks]

end HeldSpan

end Wwatp
