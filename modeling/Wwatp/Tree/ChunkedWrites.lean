import Wwatp.Cxx.Effects
import Wwatp.Cxx.MemoryWrites
import Wwatp.Tree.SpanIterator

/-! Values that are written to a span: `copy_type` goes on from a position in the storage of a chunk and returns the
one for the next value. The storage is kept apart from the span, which several spans can have in common. -/
namespace Wwatp

open Cxx

/-- The value of a type, as its bytes. -/
def PodType.Value (type : PodType) : Type := {bytes : List UInt8 // bytes.length = type.size}

/-- The bytes of an array. -/
def arrayBytes {type : PodType} (array : List type.Value) : List UInt8 := array.flatMap Subtype.val

section Values

variable {type : PodType}

theorem PodType.Value.bytes_ne_nil (value : type.Value) : value.1 ≠ [] := by
  have hSize := type.size_pos
  rw [← List.length_pos_iff, value.2]
  exact hSize

theorem arrayBytes_nil : arrayBytes ([] : List type.Value) = [] := rfl

theorem arrayBytes_cons (value : type.Value) (rest : List type.Value) :
    arrayBytes (value :: rest) = value.1 ++ arrayBytes rest := rfl

theorem length_arrayBytes (array : List type.Value) : (arrayBytes array).length = array.length * type.size := by
  induction array with
  | nil => exact (Nat.zero_mul _).symm
  | cons value rest ih => rw [arrayBytes_cons, List.length_append, value.2, ih, List.length_cons, Nat.succ_mul, Nat.add_comm]

end Values

/-- The storage of the chunks, by address and offset. -/
abbrev ChunkStorage := ℕ × ℕ → UInt8

/-- The used range of a chunk, with the address of its storage. -/
structure ChunkRange where
  address : ℕ
  first : ℕ
  size : ℕ
  first_pos : 0 < first
  fits : first + size ≤ chunkSize

/-- The chunk as it is in storage. -/
def ChunkRange.chunk (m : ChunkStorage) (c : ChunkRange) : Chunk where
  data := (List.range' 0 (c.first + c.size)).map fun i => m (c.address, i)
  first := c.first
  first_pos := c.first_pos
  first_le := by simp
  fits := by simpa using c.fits

/-- A span as the ranges of storage that it uses. -/
structure StoredSpan where
  ranges : List ChunkRange
  signalType : UInt8
  known : signalType = 0 ∨ signalType = 1 ∨ signalType = 2

/-- The bytes written so far, each with its position in the span. -/
abbrev WriteLog := List (SpanPosition × UInt8)

namespace StoredSpan

/-- What the span holds. -/
def contents (m : ChunkStorage) (s : StoredSpan) : SharedSpan := ⟨s.ranges.map (ChunkRange.chunk m), s.signalType⟩

def size (s : StoredSpan) : ℕ := totalSize ChunkRange.size s.ranges

/-- `get_signal_size`, which does not look at the storage. -/
def getSignalSize (s : StoredSpan) : Outcome ℕ := (s.contents fun _ => 0).getSignalSize

/-- Positions one after another in the storage of a chunk. -/
def positionsIn (index offset length : ℕ) : List SpanPosition := (List.range' offset length).map (SpanPosition.mk index)

/-- The positions of the bytes of chunks from an index on. -/
def positionsFrom : ℕ → List ChunkRange → List SpanPosition
  | _, [] => []
  | index, c :: rest => positionsIn index c.first c.size ++ positionsFrom (index + 1) rest

/-- The positions of the bytes of the span. -/
def positions (s : StoredSpan) : List SpanPosition := positionsFrom 0 s.ranges

/-- Where in storage a position of the span is. -/
def cell (s : StoredSpan) (p : SpanPosition) : ℕ × ℕ := ((s.ranges[p.chunkIndex]?.map ChunkRange.address).getD 0, p.spanIndex)

/-- `memcpy` to the storage of a chunk. -/
def memcpy (currentChunk byteOffset : ℕ) (bytes : List UInt8) : Effectful WriteLog Unit :=
  if byteOffset + bytes.length ≤ chunkSize then
    .change (· ++ (positionsIn currentChunk byteOffset bytes.length).zip bytes)
  else .raise (.undefined .index)

/-- What `copy_type` returns behind its last bytes: from the end of a chunk's storage it goes on to the next chunk. -/
def positionAfter (s : StoredSpan) (currentChunk : ℕ) (rest : List ChunkRange) (byteOffset toCopy : ℕ) :
    Effectful WriteLog SpanPosition :=
  if byteOffset + toCopy < chunkSize then pure ⟨currentChunk, byteOffset + toCopy⟩
  else match rest with
    | [] => do return ⟨currentChunk + 1, ← .inspect fun _ => s.getSignalSize⟩
    -- the offset in the next chunk, with the bytes added that went to this one
    | d :: _ => pure ⟨currentChunk + 1, d.first + toCopy⟩

/-- The loop of `copy_type`, with the chunks from `current_chunk` on and the bytes from `pod_offset` on. -/
def copyLoop (s : StoredSpan) (type : PodType) : ℕ → List ChunkRange → ℕ → List UInt8 → Effectful WriteLog SpanPosition
  | _, [], _, _ => .raise (.invalidArgument (str "Not enough chunks to copy the data type " ++ type.name))
  | currentChunk, c :: rest, byteOffset, data => do
    let toCopy := min data.length (sizeSub (c.size + c.first) byteOffset)
    memcpy currentChunk byteOffset (data.take toCopy)
    if toCopy = data.length then s.positionAfter currentChunk rest byteOffset toCopy
    else
      let next := match rest with
        | [] => byteOffset
        | d :: _ => d.first
      copyLoop s type (currentChunk + 1) rest next (data.drop toCopy)

/-- `copy_type` -/
def copyType (s : StoredSpan) (type : PodType) (data : type.Value) (start : Bool × SpanPosition) :
    Effectful WriteLog SpanPosition :=
  match s.ranges with
  | [] => .raise (.undefined .index)
  | c :: _ =>
    let position := if start.1 then start.2 else ⟨0, c.first⟩
    s.copyLoop type position.chunkIndex (s.ranges.drop position.chunkIndex) position.spanIndex data.1

/-- `copy_span` -/
def copySpan (s : StoredSpan) (type : PodType) : List type.Value → Bool × SpanPosition → Effectful WriteLog SpanPosition
  | [], start => pure start.2
  | value :: rest, start => do
    let nextStart ← s.copyType type value start
    s.copySpan type rest (true, nextStart)

/-- The storage after what was written to the span. -/
def after (s : StoredSpan) (log : WriteLog) (m : ChunkStorage) : ChunkStorage :=
  writeAll m (log.map fun write => (s.cell write.1, write.2))

section Positions

variable {s : StoredSpan} {front back rest : List ChunkRange} {c : ChunkRange} {index o : ℕ}

@[simp] theorem length_positionsIn (index offset length : ℕ) : (positionsIn index offset length).length = length := by
  simp [positionsIn]

/-- Positions in a row, cut in two. -/
theorem positionsIn_add (index offset first second : ℕ) :
    positionsIn index offset (first + second) = positionsIn index offset first ++ positionsIn index (offset + first) second := by
  rw [positionsIn, ← List.range'_append_1, List.map_append]
  rfl

theorem positionsIn_succ (index offset length : ℕ) :
    positionsIn index offset (length + 1) = ⟨index, offset⟩ :: positionsIn index (offset + 1) length := rfl

@[simp] theorem length_positionsFrom (index : ℕ) (ranges : List ChunkRange) :
    (positionsFrom index ranges).length = totalSize ChunkRange.size ranges := by
  induction ranges generalizing index with
  | nil => rfl
  | cons c rest ih => rw [positionsFrom, List.length_append, length_positionsIn, ih, totalSize_cons]

theorem length_positions (s : StoredSpan) : s.positions.length = s.size := length_positionsFrom 0 s.ranges

theorem positionsFrom_append (index : ℕ) (front back : List ChunkRange) :
    positionsFrom index (front ++ back) = positionsFrom index front ++ positionsFrom (index + front.length) back := by
  induction front generalizing index with
  | nil => rfl
  | cons c front ih =>
      rw [List.cons_append, positionsFrom, positionsFrom, ih, List.append_assoc, List.length_cons]
      congr 3
      omega

/-- The positions from one in a chunk on. -/
theorem drop_positionsFrom (index : ℕ) (rest : List ChunkRange) (ho : o ≤ c.size) : (positionsFrom index (c :: rest)).drop o =
    positionsIn index (c.first + o) (c.size - o) ++ positionsFrom (index + 1) rest := by
  have hSplit : positionsIn index c.first c.size =
      positionsIn index c.first o ++ positionsIn index (c.first + o) (c.size - o) := by
    rw [← positionsIn_add, Nat.add_sub_cancel' ho]
  rw [positionsFrom, hSplit, List.append_assoc, List.drop_left' (length_positionsIn _ _ _)]

theorem drop_positions (hRanges : s.ranges = front ++ back) (o : ℕ) :
    s.positions.drop (totalSize ChunkRange.size front + o) = (positionsFrom front.length back).drop o := by
  rw [positions, hRanges, positionsFrom_append, ← List.drop_drop, List.drop_left' (length_positionsFrom _ _), Nat.zero_add]

/-- No byte is in front of the used range of its chunk. -/
theorem spanIndex_pos {p : SpanPosition} {ranges : List ChunkRange} (h : p ∈ positionsFrom index ranges) : 0 < p.spanIndex := by
  induction ranges generalizing index with
  | nil => cases h
  | cons c rest ih =>
      rw [positionsFrom, List.mem_append] at h
      rcases h with hHere | hLater
      · obtain ⟨i, hi, rfl⟩ := List.mem_map.mp hHere
        exact c.first_pos.trans_le (List.mem_range'_1.mp hi).1
      · exact ih hLater

theorem chunkIndex_ge {p : SpanPosition} {ranges : List ChunkRange} (h : p ∈ positionsFrom index ranges) : index ≤ p.chunkIndex := by
  induction ranges generalizing index with
  | nil => cases h
  | cons c rest ih =>
      rw [positionsFrom, List.mem_append] at h
      rcases h with hHere | hLater
      · obtain ⟨i, -, rfl⟩ := List.mem_map.mp hHere
        exact Nat.le_refl index
      · exact (Nat.le_succ index).trans (ih hLater)

/-- What the bytes of the span are in storage. -/
theorem map_cell_positions (m : ChunkStorage) (hRanges : s.ranges = front ++ back) :
    ((positionsFrom front.length back).map s.cell).map m = back.flatMap fun c => (c.chunk m).body := by
  induction back generalizing front with
  | nil => rfl
  | cons c back ih =>
      have hNext : s.ranges = (front ++ [c]) ++ back := by rw [hRanges, List.append_cons]
      have hRest := ih hNext
      have hAddress : s.ranges[front.length]? = some c := getElem?_of_split hRanges
      have hBody : (c.chunk m).body = ((positionsIn front.length c.first c.size).map s.cell).map m := by
        rw [Chunk.body]
        dsimp only [ChunkRange.chunk]
        rw [← List.map_drop, List.drop_range', positionsIn, List.map_map, List.map_map]
        simp [cell, hAddress, Function.comp_def]
      rw [List.length_append, List.length_singleton] at hRest
      rw [positionsFrom, List.map_append, List.map_append, hRest, List.flatMap_cons, hBody]

theorem bytes_contents (s : StoredSpan) (m : ChunkStorage) : (s.contents m).bytes = (s.positions.map s.cell).map m := by
  have hMap := map_cell_positions m (List.nil_append s.ranges).symm
  rw [SharedSpan.bytes, contents, List.flatMap_map]
  exact hMap.symm

theorem exists_signalSize (s : StoredSpan) : ∃ n, s.getSignalSize = .ok n := by
  unfold getSignalSize SharedSpan.getSignalSize
  rcases s.known with hType | hType | hType <;> simp only [contents, hType] <;> split_ifs <;> simp_all

end Positions

end StoredSpan

end Wwatp
