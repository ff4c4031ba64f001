import Wwatp.Tree.Restriction

/-! The iterators of a span, which go from the used range of a chunk to that of the next one that is not empty. Each
byte of the span has one position. -/
namespace Wwatp

open Cxx

/-- The type of the values that an iterator goes over. A size is a multiple of the alignment. -/
structure PodType where
  name : Str
  size : ℕ
  alignment : ℕ
  size_pos : 0 < size
  alignment_pos : 0 < alignment
  aligned : alignment ∣ size

/-- `uint8_t` -/
def PodType.byte : PodType where
  name := str "unsigned char"
  size := 1
  alignment := 1
  size_pos := Nat.one_pos
  alignment_pos := Nat.one_pos
  aligned := Nat.dvd_refl 1

/-- `chunk_index` and `span_index` of an iterator, the latter counted from the start of the chunk's storage. -/
@[ext] structure SpanPosition where
  chunkIndex : ℕ
  spanIndex : ℕ
  deriving DecidableEq

namespace SharedSpan

/-- The start of the first chunk that is not empty, of chunks from an index on. -/
def enter : ℕ → List Chunk → SpanPosition
  | index, [] => ⟨index, 0⟩
  | index, c :: rest => if c.size = 0 then enter (index + 1) rest else ⟨index, c.first⟩

/-- `begin<PODType>()` -/
def beginPosition (s : SharedSpan) : SpanPosition := enter 0 s.chunks

/-- `end<PODType>()` -/
def endPosition (s : SharedSpan) : SpanPosition := ⟨s.chunks.length, 0⟩

/-- The loop of `operator++` over the bytes to skip. A chunk that is come to from the one before, without a
`span_index` yet, is left out if it is empty. -/
def skip : ℕ → List Chunk → Option ℕ → ℕ → Outcome SpanPosition
  | _, [], _, _ =>
    throw (.invalidArgument
      (str "PODType extends past the end of the span, but not enough bytes to complete the PODType"))
  | index, c :: rest, spanIndex, bytesToSkip =>
    if spanIndex = none ∧ c.size = 0 then skip (index + 1) rest none bytesToSkip
    else
      let spanIndex := spanIndex.getD c.first
      let chunkSpace := sizeSub c.data.length spanIndex
      if bytesToSkip ≤ chunkSpace then
        if spanIndex + bytesToSkip = c.data.length then .ok (enter (index + 1) rest)
        else .ok ⟨index, spanIndex + bytesToSkip⟩
      else skip (index + 1) rest none (bytesToSkip - chunkSpace)

/-- `operator++` -/
def increment (s : SharedSpan) (type : PodType) (p : SpanPosition) : Outcome SpanPosition :=
  if p.chunkIndex = s.chunks.length then .ok ⟨p.chunkIndex, 0⟩
  else if s.chunks.length < p.chunkIndex then throw (.undefined .index)
  else skip p.chunkIndex (s.chunks.drop p.chunkIndex) (some p.spanIndex) type.size

/-- `pod_from_chunk` from a position. -/
def podFrom (s : SharedSpan) (type : PodType) (p : SpanPosition) : Outcome (List UInt8) :=
  if s.chunks = [] then throw (.undefined .index)
  else match s.chunks.drop p.chunkIndex with
    | [] => throw (.invalidArgument (str "Not enough chunks to copy the data type " ++ type.name))
    | c :: rest =>
      if c.data.length < p.spanIndex then throw (.undefined .index)
      else podFromChunk type.size (c.data.drop p.spanIndex :: rest.map Chunk.body)

/-- `*it` of an `iterator<PODType>`, with the addresses of the chunks. -/
def dereference (s : SharedSpan) (address : ℕ → ℕ) (type : PodType) (p : SpanPosition) : Outcome (List UInt8) :=
  match s.chunks[p.chunkIndex]? with
  | none => throw (.undefined .index)
  | some c =>
    if c.data.length < p.spanIndex + type.size then
      throw (.invalidArgument (str "PODType extends past the end of the span"))
    else if (address p.chunkIndex + p.spanIndex) % type.alignment = 0 then
      .ok ((c.data.drop p.spanIndex).take type.size)
    else s.podFrom type p

/-- The position of a byte, in chunks from an index on. -/
def locate : ℕ → List Chunk → ℕ → SpanPosition
  | index, [], _ => ⟨index, 0⟩
  | index, c :: rest, n => if n < c.size then ⟨index, c.first + n⟩ else locate (index + 1) rest (n - c.size)

section Positions

variable {s : SharedSpan} {chunks front back rest : List Chunk} {c : Chunk} {index n o width : ℕ}

theorem enter_eq_locate (index : ℕ) (chunks : List Chunk) : enter index chunks = locate index chunks 0 := by
  induction chunks generalizing index with
  | nil => rfl
  | cons c rest ih =>
      rw [enter, locate]
      by_cases hEmpty : c.size = 0
      · rw [if_pos hEmpty, if_neg (by omega), Nat.zero_sub, ih]
      · rw [if_neg hEmpty, if_pos (by omega), Nat.add_zero]

/-- Behind some chunks the bytes are counted from there. -/
theorem locate_append (index : ℕ) (front back : List Chunk) (n : ℕ) :
    locate index (front ++ back) (chunksSize front + n) = locate (index + front.length) back n := by
  induction front generalizing index with
  | nil => simp
  | cons c front ih =>
      rw [List.cons_append, locate, chunksSize_cons, if_neg (by omega), Nat.add_assoc, Nat.add_sub_cancel_left, ih,
        List.length_cons, Nat.add_assoc, Nat.add_comm 1]

theorem locate_of_lt (ho : o < c.size) : locate index (front ++ c :: back) (chunksSize front + o) =
    ⟨index + front.length, c.first + o⟩ := by
  rw [locate_append, locate, if_pos ho]

theorem locate_split (hChunks : s.chunks = front ++ c :: back) (ho : o < c.size) :
    locate 0 s.chunks (chunksSize front + o) = ⟨front.length, c.first + o⟩ := by
  rw [hChunks, locate_of_lt ho, Nat.zero_add]

/-- Behind all the bytes is the end. -/
theorem locate_of_le (h : chunksSize chunks ≤ n) : locate index chunks n = ⟨index + chunks.length, 0⟩ := by
  induction chunks generalizing index n with
  | nil => rfl
  | cons c rest ih =>
      rw [chunksSize_cons] at h
      rw [locate, if_neg (by omega), ih (by omega)]
      simp only [List.length_cons, SpanPosition.mk.injEq, and_true]
      omega

/-- Each byte is in a chunk. -/
theorem exists_chunk_of_lt (h : n < chunksSize chunks) :
    ∃ front c back o, chunks = front ++ c :: back ∧ o < c.size ∧ n = chunksSize front + o := by
  induction chunks generalizing n with
  | nil => exact absurd h (Nat.not_lt_zero n)
  | cons c rest ih =>
      rw [chunksSize_cons] at h
      by_cases hFirst : n < c.size
      · exact ⟨[], c, rest, n, rfl, hFirst, by simp⟩
      · obtain ⟨front, d, back, o, rfl, ho, hn⟩ := ih (n := n - c.size) (by omega)
        refine ⟨c :: front, d, back, o, rfl, ho, ?_⟩
        rw [chunksSize_cons]
        omega

theorem exists_chunk (h : n < s.size) : ∃ front c back o, s.chunks = front ++ c :: back ∧ o < c.size ∧ n = chunksSize front + o :=
  exists_chunk_of_lt h

/-- A round of the loop in a chunk that it is in, or that it comes to and that is not empty. -/
theorem skip_cons {spanIndex : Option ℕ} (hEntered : ¬(spanIndex = none ∧ c.size = 0))
    (hIndex : spanIndex.getD c.first = c.first + o) (ho : o ≤ c.size) : skip index (c :: rest) spanIndex width =
      if o + width ≤ c.size then .ok (locate index (c :: rest) (o + width))
      else skip (index + 1) rest none (o + width - c.size) := by
  have hSize : c.data.length = c.first + c.size := by
    have hFirst := c.first_le
    rw [Chunk.size]
    omega
  have hSpace : sizeSub c.data.length (c.first + o) = c.size - o := by
    rw [sizeSub, if_pos (by omega)]
    omega
  have hLeft : width - (c.size - o) = o + width - c.size := by omega
  have hFits : width ≤ c.size - o ↔ o + width ≤ c.size := by omega
  have hWhole : c.first + o + width = c.data.length ↔ ¬o + width < c.size ∧ o + width ≤ c.size := by omega
  rw [skip, if_neg hEntered]
  simp only [hIndex, hSpace, hLeft, hFits, hWhole, enter_eq_locate, locate]
  split_ifs with hInside hEnds hLess
  · omega
  · have hNone : o + width - c.size = 0 := by omega
    rw [hNone]
  · rw [Nat.add_assoc]
  · omega
  · rfl

theorem skip_some (ho : o ≤ c.size) : skip index (c :: rest) (some (c.first + o)) width =
    if o + width ≤ c.size then .ok (locate index (c :: rest) (o + width))
    else skip (index + 1) rest none (o + width - c.size) :=
  skip_cons (by simp) rfl ho

/-- The loop comes to the position so many bytes further on. -/
theorem skip_none (hWidth : 0 < width) : skip index chunks none width =
    if width ≤ chunksSize chunks then .ok (locate index chunks width)
    else throw (.invalidArgument
      (str "PODType extends past the end of the span, but not enough bytes to complete the PODType")) := by
  induction chunks generalizing index width with
  | nil => rw [skip, chunksSize_nil, if_neg (by omega)]
  | cons c rest ih =>
      rw [chunksSize_cons]
      by_cases hEmpty : c.size = 0
      · rw [skip, if_pos ⟨rfl, hEmpty⟩, ih hWidth, locate, hEmpty, Nat.zero_add, if_neg (Nat.not_lt_zero width), Nat.sub_zero]
      · rw [skip_cons (o := 0) (fun h => hEmpty h.2) rfl (Nat.zero_le _), Nat.zero_add]
        split_ifs with hInside hMore
        · rfl
        · omega
        · rw [ih (by omega), if_pos (by omega), locate, if_neg (by omega)]
        · rw [ih (by omega), if_neg (by omega)]

/-- From a byte that is there, `operator++` comes to the one as many bytes further on as a value has. -/
theorem increment_locate (type : PodType) (h : n + type.size ≤ s.size) :
    s.increment type (locate 0 s.chunks n) = .ok (locate 0 s.chunks (n + type.size)) := by
  have hType := type.size_pos
  have hSize : s.size = chunksSize s.chunks := rfl
  obtain ⟨front, c, back, o, hChunks, ho, rfl⟩ := exists_chunk (s := s) (n := n) (by omega)
  rw [hSize, hChunks, chunksSize_append, chunksSize_cons] at h
  have hLength : s.chunks.length = front.length + (back.length + 1) := by
    rw [hChunks, List.length_append, List.length_cons]
  have hThere : locate 0 s.chunks (chunksSize front + o + type.size) =
      locate front.length (c :: back) (o + type.size) := by
    rw [hChunks, Nat.add_assoc, locate_append, Nat.zero_add]
  have hDrop : s.chunks.drop front.length = c :: back := by
    rw [hChunks, List.drop_left]
  rw [hThere, locate_split hChunks ho, increment, if_neg (by dsimp only; omega),
    if_neg (by dsimp only; omega)]
  dsimp only
  rw [hDrop, skip_some ho.le]
  split_ifs with hInside
  · rfl
  · rw [skip_none (by omega), if_pos (by omega), locate, if_neg (by omega)]

/-- Where too few bytes are left for a value, `operator++` throws. -/
theorem increment_locate_short (type : PodType) (hn : n < s.size) (h : s.size < n + type.size) :
    s.increment type (locate 0 s.chunks n) = throw (.invalidArgument
      (str "PODType extends past the end of the span, but not enough bytes to complete the PODType")) := by
  have hSize : s.size = chunksSize s.chunks := rfl
  obtain ⟨front, c, back, o, hChunks, ho, rfl⟩ := exists_chunk_of_lt (hSize ▸ hn)
  rw [hSize, hChunks, chunksSize_append, chunksSize_cons] at h
  have hLength : s.chunks.length = front.length + (back.length + 1) := by
    rw [hChunks, List.length_append, List.length_cons]
  have hDrop : s.chunks.drop front.length = c :: back := by
    rw [hChunks, List.drop_left]
  rw [locate_split hChunks ho, increment, if_neg (by dsimp only; omega),
    if_neg (by dsimp only; omega)]
  dsimp only
  rw [hDrop, skip_some ho.le, if_neg (by omega), skip_none (by omega), if_neg (by omega)]

theorem beginPosition_eq (s : SharedSpan) : s.beginPosition = locate 0 s.chunks 0 := enter_eq_locate 0 s.chunks

theorem endPosition_eq (s : SharedSpan) : s.endPosition = locate 0 s.chunks s.size := by
  have hEnd : locate 0 s.chunks (chunksSize s.chunks) = ⟨0 + s.chunks.length, 0⟩ := locate_of_le (Nat.le_refl _)
  rw [Nat.zero_add] at hEnd
  exact hEnd.symm

/-- The end is behind every byte. -/
theorem locate_eq_end_iff (h : n ≤ s.size) : locate 0 s.chunks n = s.endPosition ↔ n = s.size := by
  constructor
  · intro hEnd
    by_contra hNe
    have hLess : n < chunksSize s.chunks := lt_of_le_of_ne h hNe
    obtain ⟨front, c, back, o, hChunks, ho, rfl⟩ := exists_chunk_of_lt hLess
    rw [locate_split hChunks ho, endPosition, hChunks] at hEnd
    have hIndex := congrArg SpanPosition.chunkIndex hEnd
    simp at hIndex
  · rintro rfl
    exact s.endPosition_eq.symm

end Positions

section Bytes

variable {s : SharedSpan} {front back : List Chunk} {c : Chunk} {n o : ℕ}

/-- The bytes from one of a chunk on. -/
theorem drop_bytes (hChunks : s.chunks = front ++ c :: back) (ho : o ≤ c.size) :
    s.bytes.drop (chunksSize front + o) = c.body.drop o ++ back.flatMap Chunk.body := by
  have hFront : (front.flatMap Chunk.body).length = chunksSize front := chunksSize_eq_length front
  rw [bytes, hChunks, List.flatMap_append, ← hFront, List.drop_length_add_append, List.flatMap_cons,
    List.drop_append_of_le_length (by rw [Chunk.body_length]; exact ho)]

/-- `pod_from_chunk` takes a value from the bytes that are left. -/
theorem podFromChunk_of_le {length : ℕ} {bodies : List (List UInt8)} (hPos : 0 < length)
    (h : length ≤ bodies.flatten.length) : podFromChunk length bodies = .ok (bodies.flatten.take length) := by
  induction bodies generalizing length with
  | nil =>
      rw [List.flatten_nil, List.length_nil] at h
      omega
  | cons body bodies ih =>
      rw [List.flatten_cons, List.length_append] at h
      rw [podFromChunk, List.flatten_cons]
      split_ifs with hInside
      · rw [List.take_append_of_le_length hInside]
      · have hTake : (body ++ bodies.flatten).take length = body ++ bodies.flatten.take (length - body.length) := by
          rw [List.take_append, List.take_of_length_le (not_le.mp hInside).le]
        rw [ih (by omega) (by omega), hTake]
        rfl

theorem podFrom_locate (type : PodType) (h : n + type.size ≤ s.size) :
    s.podFrom type (locate 0 s.chunks n) = .ok ((s.bytes.drop n).take type.size) := by
  have hType := type.size_pos
  have hSize : s.size = chunksSize s.chunks := rfl
  have hBytes := s.size_eq_bytes_length
  obtain ⟨front, c, back, o, hChunks, ho, rfl⟩ := exists_chunk (s := s) (n := n) (by omega)
  have hFirst := c.first_le
  have hEnd : c.size = c.data.length - c.first := rfl
  have hDrop : s.chunks.drop front.length = c :: back := by
    rw [hChunks, List.drop_left]
  have hRest : (c.data.drop (c.first + o) :: back.map Chunk.body).flatten = s.bytes.drop (chunksSize front + o) := by
    rw [drop_bytes hChunks ho.le, List.flatten_cons, Chunk.body, List.drop_drop, List.flatMap_def]
  rw [podFrom, if_neg (by rw [hChunks]; simp)]
  rw [locate_split hChunks ho]
  dsimp only
  rw [hDrop]
  dsimp only
  rw [if_neg (by omega), podFromChunk_of_le hType, hRest]
  rw [hRest, List.length_drop]
  omega

/-- A value inside one chunk is read as it stands in the span. -/
theorem dereference_locate (address : ℕ → ℕ) (type : PodType) (hChunks : s.chunks = front ++ c :: back)
    (h : o + type.size ≤ c.size) : s.dereference address type (locate 0 s.chunks (chunksSize front + o)) =
      .ok ((s.bytes.drop (chunksSize front + o)).take type.size) := by
  have hType := type.size_pos
  have hFirst := c.first_le
  have hEnd : c.size = c.data.length - c.first := rfl
  have hSize : s.size = chunksSize front + (c.size + chunksSize back) := by
    show chunksSize s.chunks = _
    rw [hChunks, chunksSize_append, chunksSize_cons]
  have hHere : locate 0 s.chunks (chunksSize front + o) = ⟨front.length, c.first + o⟩ := locate_split hChunks (by omega)
  have hGet : s.chunks[front.length]? = some c := getElem?_of_split hChunks
  have hPod := podFrom_locate (s := s) (n := chunksSize front + o) type (by omega)
  rw [hHere] at hPod
  rw [hHere, dereference]
  simp only [hGet]
  rw [if_neg (by omega), hPod, drop_bytes hChunks (by omega)]
  split_ifs
  · have hBody : c.data.drop (c.first + o) = c.body.drop o := by
      rw [Chunk.body, List.drop_drop]
    rw [hBody, List.take_append_of_le_length]
    rw [List.length_drop, Chunk.body_length]
    omega
  · rfl

end Bytes

end SharedSpan

end Wwatp
