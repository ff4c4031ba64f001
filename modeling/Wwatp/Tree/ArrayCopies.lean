import Wwatp.Tree.ChunkedCopies
import Wwatp.Tree.SharedChunks

/-! An array that is copied to a span: its bytes take the place of the first ones of the span, whatever the chunks
are, and the next value goes on behind them. -/
namespace Wwatp

open Cxx

namespace StoredSpan

/-- Where in storage the bytes of the span are. A chunk that is in the span twice has one storage. -/
def cells (s : StoredSpan) : List (ℕ × ℕ) := s.positions.map s.cell

/-- The log of an array that is written to the first positions. -/
def arrayLog (s : StoredSpan) {type : PodType} (array : List type.Value) : WriteLog := s.positions.zip (arrayBytes array)

/-- `copy_span` from the start copies the array and returns where the next value goes. -/
structure Copies (s : StoredSpan) (type : PodType) (array : List type.Value) (m : ChunkStorage) (next : SpanPosition) : Prop where
  /-- The bytes are written to the first positions of the span, one after another. -/
  writes : s.copySpan type array (false, ⟨0, 0⟩) [] = (.ok next, s.arrayLog array)
  /-- The span begins with the array then and goes on as before. -/
  reads : (s.contents (s.after (s.arrayLog array) m)).bytes = overlaid (arrayBytes array) (s.contents m).bytes
  /-- What is in front of the used ranges of a chunk is as before: its header. -/
  headers : ∀ cell : ℕ × ℕ, (∀ c ∈ s.ranges, c.address = cell.1 → cell.2 < c.first) →
    s.after (s.arrayLog array) m cell = m cell
  /-- So is all other storage. -/
  others : ∀ cell ∉ s.cells.take (arrayBytes array).length, s.after (s.arrayLog array) m cell = m cell
  /-- The next value is written to the positions behind the array. -/
  continues : ∀ (other : PodType) (value : other.Value), (arrayBytes array).length + other.size ≤ s.size →
    ∃ p, s.copyType other value (true, next) (s.arrayLog array) =
      (.ok p, s.arrayLog array ++ (s.positions.drop (arrayBytes array).length).zip value.1)

/-- When `copy_span` copies an array. -/
structure Copyable (s : StoredSpan) (type : PodType) (array : List type.Value) (m : ChunkStorage) : Prop where
  /-- Only a span without bytes takes an array without elements. -/
  started : array = [] → s.size = 0
  /-- No element in front of other bytes of the span ends with a chunk that is used up to the end of its storage. -/
  unfilled : ∀ i, 0 < i → i ≤ array.length → i * type.size < s.size → ¬s.FilledAt (i * type.size)
  /-- Bytes of the span with the same storage are to get the same value. -/
  agree : ∀ i j : ℕ, i < (arrayBytes array).length → s.cells[i]? = s.cells[j]? →
    (overlaid (arrayBytes array) (s.contents m).bytes)[i]? = (overlaid (arrayBytes array) (s.contents m).bytes)[j]?

section

variable {s : StoredSpan} {type : PodType} {array : List type.Value} {m : ChunkStorage} {next : SpanPosition}

theorem after_arrayLog (s : StoredSpan) (array : List type.Value) (m : ChunkStorage) :
    s.after (s.arrayLog array) m = writeAll m (s.cells.zip (arrayBytes array)) := by
  rw [after, arrayLog, cells, List.zip_map_left]
  rfl

/-- Each position is in the used range of a chunk. -/
theorem exists_range_of_mem_positions {front back : List ChunkRange} {p : SpanPosition} (hRanges : s.ranges = front ++ back)
    (hp : p ∈ positionsFrom front.length back) : ∃ c ∈ back, s.cell p = (c.address, p.spanIndex) ∧ c.first ≤ p.spanIndex := by
  induction back generalizing front with
  | nil => cases hp
  | cons c back ih =>
      rw [positionsFrom, List.mem_append] at hp
      rcases hp with hHere | hLater
      · obtain ⟨i, hi, rfl⟩ := List.mem_map.mp hHere
        refine ⟨c, List.mem_cons_self, ?_, (List.mem_range'_1.mp hi).1⟩
        rw [cell, getElem?_of_split hRanges]
        rfl
      · have hNext : s.ranges = (front ++ [c]) ++ back := by rw [hRanges, List.append_cons]
        obtain ⟨d, hMem, hd⟩ := ih hNext (by rwa [List.length_append, List.length_singleton])
        exact ⟨d, List.mem_cons_of_mem c hMem, hd⟩

theorem exists_range_of_mem {cell : ℕ × ℕ} (h : cell ∈ s.cells) : ∃ c ∈ s.ranges, c.address = cell.1 ∧ c.first ≤ cell.2 := by
  obtain ⟨p, hp, rfl⟩ := List.mem_map.mp h
  obtain ⟨c, hMem, hCell, hFirst⟩ := exists_range_of_mem_positions (List.nil_append s.ranges).symm hp
  rw [hCell]
  exact ⟨c, hMem, rfl, hFirst⟩

/-- The span reads as it should when bytes with the same storage are to get the same value. -/
theorem reads_iff (hFits : (arrayBytes array).length ≤ s.size) :
    (s.contents (s.after (s.arrayLog array) m)).bytes = overlaid (arrayBytes array) (s.contents m).bytes ↔
      ∀ i j : ℕ, i < (arrayBytes array).length → s.cells[i]? = s.cells[j]? →
        (overlaid (arrayBytes array) (s.contents m).bytes)[i]? = (overlaid (arrayBytes array) (s.contents m).bytes)[j]? := by
  have hLength : (arrayBytes array).length ≤ s.cells.length := by
    rw [cells, List.length_map, length_positions]
    exact hFits
  rw [bytes_contents, bytes_contents, after_arrayLog]
  exact map_writeAll_iff hLength

theorem after_of_not_mem {cell : ℕ × ℕ} (h : cell ∉ s.cells.take (arrayBytes array).length) :
    s.after (s.arrayLog array) m cell = m cell := by
  rw [after_arrayLog]
  exact writeAll_of_not_mem (by rwa [map_fst_zip_take])

/-- Where no two bytes have the same storage, each is only itself. -/
theorem agree_of_nodup (h : s.cells.Nodup) (i j : ℕ) (hi : i < s.size) (hSame : s.cells[i]? = s.cells[j]?) : i = j := by
  have hLength : i < s.cells.length := by
    rw [cells, List.length_map, length_positions]
    exact hi
  exact (List.getElem?_inj hLength h).mp hSame

theorem copySpan_start {c : ChunkRange} {rest : List ChunkRange} (hRanges : s.ranges = c :: rest) (value : type.Value)
    (array : List type.Value) (p : SpanPosition) :
    s.copySpan type (value :: array) (false, p) = s.copySpan type (value :: array) (true, ⟨0, c.first⟩) := by
  rw [copySpan, copySpan, copyType_start hRanges]

/-- The position that `copy_span` returns for an array without elements is in a header. -/
theorem copyType_zero_misses {value : type.Value} {q : SpanPosition} {log after : WriteLog}
    (h : s.copyType type value (true, ⟨0, 0⟩) log = (.ok q, after)) : s.Misses 0 log after := by
  cases hRanges : s.ranges with
  | nil =>
      unfold copyType at h
      rw [hRanges] at h
      cases congrArg Prod.fst h
  | cons c rest =>
      have hFirst := c.first_pos
      have hSplit : s.ranges = [] ++ c :: rest := hRanges
      have hRun : s.copyLoop type 0 (c :: rest) 0 value.1 log = (.ok q, after) := by
        rw [← h]
        exact (congrFun (copyType_eq hSplit value 0) log).symm
      have hRoom : sizeSub (c.size + c.first) 0 ≠ 0 := by
        rw [sizeSub, if_pos (Nat.zero_le _)]
        omega
      obtain ⟨b, more, hAfter⟩ := copyLoop_enters hRoom value.bytes_ne_nil hRun
      exact ⟨_, b, more, hAfter, fun hSame => absurd (spanIndex_pos (List.mem_of_getElem? hSame)) (Nat.lt_irrefl 0)⟩

theorem copySpan_zero (hFits : array.length * type.size ≤ s.size) (hNe : array ≠ [])
    (hUnfilled : ∀ i, 0 < i → i < array.length → ¬s.FilledAt (i * type.size)) :
    ∃ q, s.copySpan type array (false, ⟨0, 0⟩) [] = (.ok q, s.arrayLog array) ∧ s.Behind (array.length * type.size) q := by
  have hType := type.size_pos
  obtain ⟨value, rest, rfl⟩ := List.exists_cons_of_ne_nil hNe
  cases hRanges : s.ranges with
  | nil =>
      rw [size, hRanges, totalSize_nil, List.length_cons, Nat.succ_mul] at hFits
      omega
  | cons c back =>
      obtain ⟨q, hRun, hBehind⟩ := copySpan_spec (continues_zero hRanges) (by rwa [Nat.zero_add])
        (by simpa only [Nat.zero_add] using hUnfilled) []
      rw [copySpan_start hRanges, hRun]
      rw [Nat.zero_add] at hBehind
      exact ⟨q, rfl, hBehind hNe⟩

theorem Copyable.exists_copies (h : s.Copyable type array m) (hFits : array.length * type.size ≤ s.size) :
    ∃ next, s.Copies type array m next := by
  have hType := type.size_pos
  have hLength := length_arrayBytes array
  have hReads := (reads_iff (hLength.trans_le hFits)).mpr h.agree
  have hHeaders : ∀ cell : ℕ × ℕ, (∀ c ∈ s.ranges, c.address = cell.1 → cell.2 < c.first) →
      s.after (s.arrayLog array) m cell = m cell := by
    intro cell hFront
    apply after_of_not_mem
    intro hMem
    obtain ⟨c, hc, hAddress, hFirst⟩ := exists_range_of_mem (List.mem_of_mem_take hMem)
    exact absurd (hFront c hc hAddress) (not_lt.mpr hFirst)
  by_cases hNone : array = []
  · subst hNone
    have hEmpty := h.started rfl
    refine ⟨⟨0, 0⟩, ⟨?_, hReads, hHeaders, fun cell => after_of_not_mem, fun other value hMore => ?_⟩⟩
    · rw [copySpan_nil, arrayLog, arrayBytes_nil, List.zip_nil_right]
    · have hOther := other.size_pos
      omega
  · have hPos := List.length_pos_iff.mpr hNone
    have hInside : ∀ i, 0 < i → i < array.length → ¬s.FilledAt (i * type.size) := by
      intro i hi hLess
      have hBefore : i * type.size < array.length * type.size := Nat.mul_lt_mul_of_pos_right hLess hType
      exact h.unfilled i hi hLess.le (hBefore.trans_le hFits)
    obtain ⟨next, hRun, hBehind⟩ := copySpan_zero hFits hNone hInside
    refine ⟨next, ⟨hRun, hReads, hHeaders, fun cell => after_of_not_mem, fun other value hMore => ?_⟩⟩
    have hOther := other.size_pos
    have hEnd := h.unfilled array.length hPos (Nat.le_refl _) (by omega)
    obtain ⟨q, hNext, -⟩ := copyType_spec (hBehind.continues hEnd) value (by omega) (s.arrayLog array)
    exact ⟨q, by rw [hNext, hLength]⟩

theorem Copies.started (h : s.Copies type array m next) (hNone : array = []) : s.size = 0 := by
  subst hNone
  by_contra hNe
  obtain ⟨p, hNext⟩ := h.continues .byte ⟨[0], rfl⟩ (by
    rw [arrayBytes_nil, List.length_nil, Nat.zero_add]
    exact Nat.pos_of_ne_zero hNe)
  obtain rfl : next = ⟨0, 0⟩ := (Except.ok.inj (congrArg Prod.fst h.writes)).symm
  exact not_misses _ _ _ _ (copyType_zero_misses hNext)

theorem Copies.unfilled (h : s.Copies type array m next) (hFits : array.length * type.size ≤ s.size) {i : ℕ} (hPos : 0 < i)
    (hi : i ≤ array.length) (hLess : i * type.size < s.size) : ¬s.FilledAt (i * type.size) := by
  have hNe : array ≠ [] := List.length_pos_iff.mp (hPos.trans_le hi)
  obtain ⟨value, rest, rfl⟩ := List.exists_cons_of_ne_nil hNe
  have hInside : ∀ i, 0 < i → i < (value :: rest).length → ¬s.FilledAt (i * type.size) := by
    cases hRanges : s.ranges with
    | nil =>
        rw [size, hRanges, totalSize_nil] at hLess
        exact absurd hLess (Nat.not_lt_zero _)
    | cons c back =>
        have hRun := h.writes
        rw [copySpan_start hRanges] at hRun
        have hUnfilled := unfilled_of_copySpan (continues_zero hRanges) (by rwa [Nat.zero_add]) hRun
        simpa only [Nat.zero_add] using hUnfilled
  rcases hi.lt_or_eq with hBefore | rfl
  · exact hInside i hPos hBefore
  · -- the next value would miss its position
    intro hFilled
    obtain ⟨q, hRun, hBehind⟩ := copySpan_zero hFits hNe hInside
    obtain rfl : q = next := Except.ok.inj (congrArg Prod.fst (hRun.symm.trans h.writes))
    obtain ⟨p, hNext⟩ := h.continues .byte ⟨[0], rfl⟩ (by
      rw [length_arrayBytes]
      exact hLess)
    rw [length_arrayBytes] at hNext
    exact not_misses _ _ _ _ (copyType_misses (hBehind.shifted hFilled hLess) _ hNext)

/-- `copy_span` does what it is for when no element in front of others ends with a filled chunk. -/
theorem copies_iff (hFits : array.length * type.size ≤ s.size) :
    (∃ next, s.Copies type array m next) ↔ s.Copyable type array m := by
  constructor
  · rintro ⟨next, h⟩
    have hLength := length_arrayBytes array
    exact ⟨h.started, fun i hPos hi hLess => h.unfilled hFits hPos hi hLess,
      (reads_iff (hLength.trans_le hFits)).mp h.reads⟩
  · intro h
    exact h.exists_copies hFits

end

/-- The chunks of the span with what they hold. -/
def held (m : ChunkStorage) (s : StoredSpan) : HeldSpan := ⟨s.ranges.map fun c => ⟨c.address, c.chunk m⟩, s.signalType⟩

/-- The bytes of some writes to chunks, with where in storage they go. -/
def writtenBytes (writes : List ChunkWrite) : List ((ℕ × ℕ) × UInt8) :=
  writes.flatMap fun write => ((List.range' write.position write.bytes.length).map (Prod.mk write.address)).zip write.bytes

section Held

variable {s : StoredSpan} {type : PodType} {m : ChunkStorage} {front back : List ChunkRange} {c : ChunkRange} {o : ℕ} {data : List UInt8}

theorem size_chunk (m : ChunkStorage) (c : ChunkRange) : (c.chunk m).size = c.size := by
  simp [Chunk.size, ChunkRange.chunk]

theorem map_cell_positionsIn (hRanges : s.ranges = front ++ c :: back) (offset length : ℕ) :
    (positionsIn front.length offset length).map s.cell = (List.range' offset length).map (Prod.mk c.address) := by
  rw [positionsIn, List.map_map]
  apply List.map_congr_left
  intro i _
  simp [cell, getElem?_of_split hRanges]

theorem sizeSub_held (m : ChunkStorage) (c : ChunkRange) (ho : o ≤ c.size) :
    sizeSub ((c.chunk m).size + (c.chunk m).first) (c.first + o) = c.size - o := by
  rw [size_chunk]
  exact sizeSub_in c ho

/-- The last round of the loop over shared chunks. -/
theorem copyLoop_held_last (hRanges : s.ranges = front ++ c :: back) (ho : o ≤ c.size) (hFits : data.length ≤ c.size - o)
    (type : Str) (m : ChunkStorage) (rest : List SharedChunk) :
    ∃ writes, SharedChunk.copyLoop type (⟨c.address, c.chunk m⟩ :: rest) (c.first + o) data = .ok writes ∧
      writtenBytes writes = (((positionsFrom front.length (c :: back)).drop o).map s.cell).zip data := by
  have hCopy : min data.length (sizeSub ((c.chunk m).size + (c.chunk m).first) (c.first + o)) = data.length := by
    rw [sizeSub_held m c ho]
    omega
  have hLeft : c.size - o = data.length + (c.size - o - data.length) := by omega
  refine ⟨[⟨c.address, c.first + o, data⟩], ?_, ?_⟩
  · rw [SharedChunk.copyLoop.eq_def]
    simp only [SharedChunk.size, hCopy, ↓reduceIte]
  · rw [drop_positionsFrom _ _ ho, hLeft, positionsIn_add, List.append_assoc, List.map_append, map_cell_positionsIn hRanges,
      zip_append_of_length _ (by rw [List.length_map, List.length_range'])]
    simp [writtenBytes]

/-- The loop over shared chunks writes to the same bytes of storage. -/
theorem copyLoop_held (hRanges : s.ranges = front ++ c :: back) (ho : o ≤ c.size)
    (hFits : data.length ≤ c.size - o + totalSize ChunkRange.size back) (type : Str) (m : ChunkStorage) :
    ∃ writes, SharedChunk.copyLoop type ((c :: back).map fun c => ⟨c.address, c.chunk m⟩) (c.first + o) data = .ok writes ∧
      writtenBytes writes = (((positionsFrom front.length (c :: back)).drop o).map s.cell).zip data := by
  induction back generalizing front c o data with
  | nil =>
      rw [totalSize_nil] at hFits
      exact copyLoop_held_last hRanges ho (by omega) type m []
  | cons d back ih =>
      rcases Nat.lt_or_ge (c.size - o) data.length with hMore | hLast
      · have hNext : s.ranges = (front ++ [c]) ++ d :: back := by rw [hRanges, List.append_cons]
        rw [totalSize_cons] at hFits
        have hRest : (data.drop (c.size - o)).length ≤ d.size - 0 + totalSize ChunkRange.size back := by
          rw [List.length_drop]
          omega
        obtain ⟨writes, hRun, hWritten⟩ := ih hNext (Nat.zero_le _) hRest
        have hCopy : min data.length (sizeSub ((c.chunk m).size + (c.chunk m).first) (c.first + o)) = c.size - o := by
          rw [sizeSub_held m c ho]
          omega
        refine ⟨⟨c.address, c.first + o, data.take (c.size - o)⟩ :: writes, ?_, ?_⟩
        · rw [List.map_cons, SharedChunk.copyLoop.eq_def]
          simp only [SharedChunk.size, hCopy]
          rw [if_neg (by omega)]
          exact congrArg (fun run => run >>= fun writes => pure (_ :: writes)) hRun
        · have hLength : (data.take (c.size - o)).length = c.size - o := by
            rw [List.length_take]
            omega
          have hHere : ((positionsIn front.length (c.first + o) (c.size - o)).map s.cell).length = (data.take (c.size - o)).length := by
            rw [List.length_map, length_positionsIn, hLength]
          rw [List.length_append, List.length_singleton, List.drop_zero] at hWritten
          rw [drop_positionsFrom _ _ ho, List.map_append]
          conv_rhs => rw [← List.take_append_drop (c.size - o) data]
          rw [List.zip_append hHere, ← hWritten, map_cell_positionsIn hRanges, writtenBytes, List.flatMap_cons, hLength]
          rfl
      · exact copyLoop_held_last hRanges ho hLast type m _

/-- A value that is written to shared chunks goes to the same bytes of storage. -/
theorem copyType_held (value : type.Value) (hFits : type.size ≤ s.size) (m : ChunkStorage) :
    ∃ writes, (s.held m).copyType type.name value.1 = .ok writes ∧ writtenBytes writes = s.cells.zip value.1 := by
  have hType := type.size_pos
  cases hRanges : s.ranges with
  | nil =>
      rw [size, hRanges, totalSize_nil] at hFits
      omega
  | cons c back =>
      rw [size, hRanges, totalSize_cons] at hFits
      have hSplit : s.ranges = [] ++ c :: back := hRanges
      obtain ⟨writes, hRun, hWritten⟩ := copyLoop_held hSplit (Nat.zero_le _) (by rw [value.2]; exact hFits) type.name m
      refine ⟨writes, ?_, ?_⟩
      · rw [HeldSpan.copyType, held, hRanges]
        exact hRun
      · rw [hWritten, cells, positions, hRanges]
        rfl

end Held

/-- Two chunks, of which the first has its last two bytes left. -/
def twoLeft : StoredSpan where
  ranges := [⟨0, 1198, 2, by decide, by decide⟩, ⟨1, 1, 3, by decide, by decide⟩]
  signalType := 0
  known := .inl rfl

/-- A type of three bytes. -/
def threeBytes : PodType where
  name := str "three"
  size := 3
  alignment := 1
  size_pos := by decide
  alignment_pos := by decide
  aligned := by decide

def oneTwoThree : threeBytes.Value := ⟨[1, 2, 3], rfl⟩

/-- A value goes from one chunk to the next. -/
theorem copies_iff_twoLeft : ∃ next, twoLeft.Copies threeBytes [oneTwoThree] (fun _ => 0) next := by
  apply (copies_iff (by decide)).mpr
  constructor
  · intro hNone
    cases hNone
  · rintro i hPos hi - ⟨front, c, back, hRanges, hUsed, hFilled, hEnd⟩
    obtain rfl : i = 1 := Nat.le_antisymm hi hPos
    obtain ⟨rfl, rfl⟩ : [⟨0, 1198, 2, by decide, by decide⟩] = front ∧ ⟨1, 1, 3, by decide, by decide⟩ = c :=
      split_unique (o := 1) hRanges (by decide) (by decide) hUsed (Nat.le_refl c.size) (by rw [← hEnd]; decide)
    exact absurd hFilled (by decide)
  · intro i j hi hSame
    rw [agree_of_nodup (by decide) i j (hi.trans (by decide)) hSame]

/-- Two chunks, of which the first has its last byte left. -/
def oneLeft : StoredSpan where
  ranges := [⟨0, 1199, 1, by decide, by decide⟩, ⟨1, 1, 2, by decide, by decide⟩]
  signalType := 0
  known := .inl rfl

/-- The byte behind a filled chunk is written one byte too far on. -/
theorem not_copies_oneLeft :
    2 * PodType.byte.size ≤ oneLeft.size ∧ ¬∃ next, oneLeft.Copies .byte [⟨[1], rfl⟩, ⟨[2], rfl⟩] (fun _ => 0) next := by
  constructor
  · decide
  · rintro ⟨next, h⟩
    have hLog : (oneLeft.copySpan .byte [⟨[1], rfl⟩, ⟨[2], rfl⟩] (false, ⟨0, 0⟩) []).2 =
        oneLeft.arrayLog [⟨[1], rfl⟩, ⟨[2], rfl⟩] := congrArg Prod.snd h.writes
    exact absurd hLog (by decide)

end StoredSpan

end Wwatp
