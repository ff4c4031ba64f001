import Wwatp.Tree.ChunkedWrites

/-! What the positions that `copy_type` and `copy_span` return are good for. -/
namespace Wwatp

open Cxx

namespace StoredSpan

/-- A position from which the bytes from a given one on are written. -/
def Continues (s : StoredSpan) (n : ℕ) (p : SpanPosition) : Prop :=
  ∃ front c back o, s.ranges = front ++ c :: back ∧ o ≤ c.size ∧ n = totalSize ChunkRange.size front + o ∧
    p = ⟨front.length, c.first + o⟩

/-- So many bytes end with those of a chunk that is used up to the end of its storage. -/
def FilledAt (s : StoredSpan) (n : ℕ) : Prop :=
  ∃ front c back, s.ranges = front ++ c :: back ∧ 0 < c.size ∧ c.first + c.size = chunkSize ∧
    n = totalSize ChunkRange.size front + c.size

/-- A position that is too far on in the chunk from which the bytes are to be written. -/
def Shifted (s : StoredSpan) (n : ℕ) (p : SpanPosition) : Prop :=
  ∃ front c back t, s.ranges = front ++ c :: back ∧ n = totalSize ChunkRange.size front ∧ 0 < t ∧ t ≤ chunkSize ∧
    p = ⟨front.length, c.first + t⟩

/-- A position that `copy_type` returns behind so many bytes. -/
structure Behind (s : StoredSpan) (n : ℕ) (p : SpanPosition) : Prop where
  continues : ¬s.FilledAt n → s.Continues n p
  shifted : s.FilledAt n → n < s.size → s.Shifted n p

section Values

variable {s : StoredSpan} {type : PodType} {front back rest : List ChunkRange} {c : ChunkRange} {index n o : ℕ}
  {data : List UInt8} {log : WriteLog} {p : SpanPosition}

theorem memcpy_of_le {offset : ℕ} (h : offset + data.length ≤ chunkSize) (log : WriteLog) :
    memcpy index offset data log = (.ok (), log ++ (positionsIn index offset data.length).zip data) := by
  rw [memcpy, if_pos h]
  rfl

theorem sizeSub_in (c : ChunkRange) (ho : o ≤ c.size) : sizeSub (c.size + c.first) (c.first + o) = c.size - o := by
  rw [sizeSub, if_pos (by omega)]
  omega

/-- The last round of the loop. -/
theorem copyLoop_last (ho : o ≤ c.size) (hFits : data.length ≤ c.size - o) :
    s.copyLoop type index (c :: rest) (c.first + o) data log = s.positionAfter index rest (c.first + o) data.length
      (log ++ ((positionsFrom index (c :: rest)).drop o).zip data) := by
  have hStorage := c.fits
  have hCopy : min data.length (sizeSub (c.size + c.first) (c.first + o)) = data.length := by
    rw [sizeSub_in c ho]
    omega
  have hPositions : ((positionsFrom index (c :: rest)).drop o).zip data =
      (positionsIn index (c.first + o) data.length).zip data := by
    have hLeft : c.size - o = data.length + (c.size - o - data.length) := by omega
    rw [drop_positionsFrom _ _ ho, hLeft, positionsIn_add, List.append_assoc, zip_append_of_length _ (length_positionsIn _ _ _)]
  rw [copyLoop.eq_def, hPositions]
  simp only [hCopy, List.take_length, ↓reduceIte]
  rw [Effectful.bind_ok (memcpy_of_le (by omega) log)]

/-- A round of the loop that takes what is left of a chunk. -/
theorem copyLoop_next (ho : o ≤ c.size) {d : ChunkRange} (hMore : c.size - o < data.length) :
    s.copyLoop type index (c :: d :: rest) (c.first + o) data log =
      s.copyLoop type (index + 1) (d :: rest) (d.first + 0) (data.drop (c.size - o))
        (log ++ (positionsIn index (c.first + o) (c.size - o)).zip (data.take (c.size - o))) := by
  have hStorage := c.fits
  have hCopy : min data.length (sizeSub (c.size + c.first) (c.first + o)) = c.size - o := by
    rw [sizeSub_in c ho]
    omega
  have hLength : (data.take (c.size - o)).length = c.size - o := by
    rw [List.length_take]
    omega
  rw [copyLoop]
  simp only [hCopy]
  rw [Effectful.bind_ok (memcpy_of_le (by omega) log), if_neg (by omega), hLength]
  rfl

/-- What is returned is behind the last byte. -/
theorem positionAfter_behind (hRanges : s.ranges = front ++ c :: back) (hFits : o + data.length ≤ c.size) (hData : data ≠ [])
    (log : WriteLog) : ∃ q, s.positionAfter front.length back (c.first + o) data.length log = (.ok q, log) ∧
      s.Behind (totalSize ChunkRange.size front + o + data.length) q := by
  have hLength := List.length_pos_iff.mpr hData
  have hStorage := c.fits
  unfold positionAfter
  split_ifs with hInside
  · refine ⟨_, rfl, fun _ => ⟨front, c, back, o + data.length, hRanges, hFits, by omega, by rw [Nat.add_assoc]⟩, ?_⟩
    -- the chunk that these bytes end in is not filled
    rintro ⟨front', c', back', hRanges', hPos, hFilled, hSame⟩
    obtain ⟨rfl, rfl⟩ := split_unique (hRanges.symm.trans hRanges') (o := o + data.length) (by omega) hFits hPos
      (Nat.le_refl _) (by omega)
    omega
  · have hWhole : o + data.length = c.size := by omega
    have hFilled : s.FilledAt (totalSize ChunkRange.size front + o + data.length) :=
      ⟨front, c, back, hRanges, by omega, by omega, by omega⟩
    cases back with
    | nil =>
        obtain ⟨n, hSize⟩ := s.exists_signalSize
        refine ⟨⟨front.length + 1, n⟩, ?_, fun hNot => absurd hFilled hNot, fun _ hLess => ?_⟩
        · exact Effectful.bind_inspect hSize
        · rw [size, hRanges, totalSize_append, totalSize_cons, totalSize_nil] at hLess
          omega
    | cons d back =>
        refine ⟨_, rfl, fun hNot => absurd hFilled hNot, fun _ _ => ?_⟩
        refine ⟨front ++ [c], d, back, data.length, by rw [hRanges, List.append_cons], ?_, hLength, by omega, ?_⟩
        · rw [totalSize_append, totalSize_cons, totalSize_nil]
          omega
        · rw [List.length_append, List.length_singleton]

/-- The loop writes all bytes to the positions from there on. -/
theorem copyLoop_spec (hRanges : s.ranges = front ++ c :: back) (ho : o ≤ c.size) (hData : data ≠ [])
    (hFits : data.length ≤ c.size - o + totalSize ChunkRange.size back) (type : PodType) (log : WriteLog) :
    ∃ q, s.copyLoop type front.length (c :: back) (c.first + o) data log =
        (.ok q, log ++ ((positionsFrom front.length (c :: back)).drop o).zip data) ∧
      s.Behind (totalSize ChunkRange.size front + o + data.length) q := by
  induction back generalizing front c o data log with
  | nil =>
      rw [totalSize_nil] at hFits
      rw [copyLoop_last ho (by omega)]
      exact positionAfter_behind hRanges (by omega) hData _
  | cons d back ih =>
      rcases Nat.lt_or_ge (c.size - o) data.length with hMore | hLast
      · have hDrop : data.drop (c.size - o) ≠ [] := by
          rw [Ne, List.drop_eq_nil_iff]
          omega
        rw [totalSize_cons] at hFits
        have hNext : s.ranges = (front ++ [c]) ++ d :: back := by rw [hRanges, List.append_cons]
        obtain ⟨q, hRun, hBehind⟩ := ih hNext (Nat.zero_le _) hDrop (by rw [List.length_drop]; omega)
          (log ++ (positionsIn front.length (c.first + o) (c.size - o)).zip (data.take (c.size - o)))
        refine ⟨q, ?_, ?_⟩
        · rw [List.length_append, List.length_singleton, List.drop_zero] at hRun
          have hLength : (positionsIn front.length (c.first + o) (c.size - o)).length = (data.take (c.size - o)).length := by
            rw [length_positionsIn, List.length_take]
            omega
          rw [copyLoop_next ho hMore, hRun, drop_positionsFrom _ _ ho, List.append_assoc, ← List.zip_append hLength,
            List.take_append_drop]
        · have hSame : totalSize ChunkRange.size (front ++ [c]) + 0 + (data.drop (c.size - o)).length =
              totalSize ChunkRange.size front + o + data.length := by
            rw [totalSize_append, totalSize_cons, totalSize_nil, List.length_drop]
            omega
          rwa [hSame] at hBehind
      · rw [copyLoop_last ho hLast]
        exact positionAfter_behind hRanges (by omega) hData _

theorem continues_zero (hRanges : s.ranges = c :: rest) : s.Continues 0 ⟨0, c.first⟩ :=
  ⟨[], c, rest, 0, hRanges, Nat.zero_le _, rfl, rfl⟩

theorem copyType_eq (hRanges : s.ranges = front ++ c :: back) (value : type.Value) (offset : ℕ) :
    s.copyType type value (true, ⟨front.length, offset⟩) = s.copyLoop type front.length (c :: back) offset value.1 := by
  unfold copyType
  split
  · next hNone => simp [hRanges] at hNone
  · simp only [↓reduceIte]
    rw [hRanges, List.drop_left]

/-- Without a position `copy_type` writes from the first chunk on. -/
theorem copyType_start (hRanges : s.ranges = c :: rest) (value : type.Value) (p : SpanPosition) :
    s.copyType type value (false, p) = s.copyType type value (true, ⟨0, c.first⟩) := by
  unfold copyType
  rw [hRanges]
  rfl

/-- `copy_type` writes a value that fits to the positions from there on. -/
theorem copyType_spec (hStart : s.Continues n p) (value : type.Value) (hFits : n + type.size ≤ s.size) (log : WriteLog) :
    ∃ q, s.copyType type value (true, p) log = (.ok q, log ++ (s.positions.drop n).zip value.1) ∧ s.Behind (n + type.size) q := by
  obtain ⟨front, c, back, o, hRanges, ho, rfl, rfl⟩ := hStart
  have hSize : s.size = totalSize ChunkRange.size front + (c.size + totalSize ChunkRange.size back) := by
    rw [size, hRanges, totalSize_append, totalSize_cons]
  have hLength := value.2
  obtain ⟨q, hRun, hBehind⟩ := copyLoop_spec hRanges ho value.bytes_ne_nil (by omega) type log
  rw [hLength] at hBehind
  exact ⟨q, by rw [copyType_eq hRanges, hRun, drop_positions hRanges], hBehind⟩

theorem copySpan_nil (start : Bool × SpanPosition) (log : WriteLog) : s.copySpan type [] start log = (.ok start.2, log) := rfl

/-- `copy_span` writes an array that fits to the positions from there on, as long as no element but the last one ends
with a filled chunk. -/
theorem copySpan_spec {array : List type.Value} (hStart : s.Continues n p) (hFits : n + array.length * type.size ≤ s.size)
    (hUnfilled : ∀ i, 0 < i → i < array.length → ¬s.FilledAt (n + i * type.size)) (log : WriteLog) :
    ∃ q, s.copySpan type array (true, p) log = (.ok q, log ++ (s.positions.drop n).zip (arrayBytes array)) ∧
      (array ≠ [] → s.Behind (n + array.length * type.size) q) := by
  induction array generalizing n p log with
  | nil =>
      rw [copySpan_nil, arrayBytes_nil, List.zip_nil_right, List.append_nil]
      exact ⟨p, rfl, fun h => absurd rfl h⟩
  | cons value rest ih =>
      rw [List.length_cons, Nat.succ_mul] at hFits
      obtain ⟨next, hFirst, hBehind⟩ := copyType_spec hStart value (by omega) log
      rw [copySpan, Effectful.bind_ok hFirst, arrayBytes_cons, zip_append_drop, value.2, List.drop_drop, ← List.append_assoc]
      cases rest with
      | nil =>
          rw [copySpan_nil, arrayBytes_nil, List.zip_nil_right, List.append_nil, List.length_singleton, Nat.one_mul]
          exact ⟨next, rfl, fun _ => hBehind⟩
      | cons second rest =>
          have hInside := hUnfilled 1 Nat.one_pos (by simp)
          rw [Nat.one_mul] at hInside
          have hLater : ∀ i, 0 < i → i < (second :: rest).length → ¬s.FilledAt (n + type.size + i * type.size) := by
            intro i hPos hi
            have hNext := hUnfilled (i + 1) (Nat.succ_pos i) (Nat.succ_lt_succ hi)
            rwa [Nat.succ_mul, Nat.add_comm (i * type.size), ← Nat.add_assoc] at hNext
          obtain ⟨q, hRun, hEnd⟩ := ih (hBehind.continues hInside) (by omega) hLater
            (log ++ (s.positions.drop n).zip value.1)
          have hSame : n + type.size + (second :: rest).length * type.size = n + (value :: second :: rest).length * type.size := by
            rw [List.length_cons, List.length_cons, List.length_cons, Nat.succ_mul (rest.length + 1)]
            omega
          rw [hSame] at hEnd
          exact ⟨q, hRun, fun _ => hEnd (List.cons_ne_nil _ _)⟩

end Values

section Misplaced

variable {s : StoredSpan} {type : PodType} {front back rest ranges : List ChunkRange} {c : ChunkRange} {index offset n o : ℕ}
  {data : List UInt8} {log after : WriteLog} {p q : SpanPosition}

theorem keeps_memcpy (before : WriteLog) : Effectful.Keeps (before <+: ·) (memcpy index offset data) := by
  intro log hLog
  unfold memcpy
  split_ifs
  · exact hLog.trans (List.prefix_append _ _)
  · exact hLog

theorem keeps_positionAfter (before : WriteLog) : Effectful.Keeps (before <+: ·) (s.positionAfter index rest offset n) := by
  unfold positionAfter
  split_ifs
  · exact Effectful.keeps_pure _
  · cases rest with
    | nil => exact Effectful.keeps_bind (Effectful.keeps_inspect _) fun _ _ _ => Effectful.keeps_pure _
    | cons d rest => exact Effectful.keeps_pure _

/-- What is written stays in the log. -/
theorem keeps_copyLoop (before : WriteLog) : Effectful.Keeps (before <+: ·) (s.copyLoop type index ranges offset data) := by
  induction ranges generalizing index offset data with
  | nil => exact Effectful.keeps_raise _
  | cons c rest ih =>
      rw [copyLoop.eq_def]
      refine Effectful.keeps_bind (keeps_memcpy before) fun _ _ _ => ?_
      split_ifs
      · exact keeps_positionAfter before
      · exact ih

theorem keeps_copyType (before : WriteLog) (value : type.Value) (start : Bool × SpanPosition) :
    Effectful.Keeps (before <+: ·) (s.copyType type value start) := by
  unfold copyType
  split
  · exact Effectful.keeps_raise _
  · exact keeps_copyLoop before

theorem keeps_copySpan (before : WriteLog) (array : List type.Value) (start : Bool × SpanPosition) :
    Effectful.Keeps (before <+: ·) (s.copySpan type array start) := by
  induction array generalizing start with
  | nil => exact Effectful.keeps_pure _
  | cons value rest ih => exact Effectful.keeps_bind (keeps_copyType before value start) fun _ _ _ => ih _

/-- Some byte is the first that is written, and not to the position that it is to have. -/
def Misses (s : StoredSpan) (n : ℕ) (log after : WriteLog) : Prop :=
  ∃ q b more, after = log ++ (q, b) :: more ∧ s.positions[n]? ≠ some q

theorem Misses.trans {later : WriteLog} (h : s.Misses n log after) (hLater : after <+: later) : s.Misses n log later := by
  obtain ⟨q, b, more, rfl, hq⟩ := h
  obtain ⟨rest, rfl⟩ := hLater
  exact ⟨q, b, more ++ rest, by rw [List.append_assoc, List.cons_append], hq⟩

/-- Bytes at the positions from there on do not miss them. -/
theorem not_misses (s : StoredSpan) (n : ℕ) (log : WriteLog) (bytes : List UInt8) :
    ¬s.Misses n log (log ++ (s.positions.drop n).zip bytes) := by
  rintro ⟨q, b, more, hSame, hq⟩
  apply hq
  have hFirst : ((s.positions.drop n).zip bytes)[0]? = some (q, b) := by
    rw [List.append_cancel_left hSame]
    rfl
  rw [List.getElem?_zip_eq_some, List.getElem?_drop, Nat.add_zero] at hFirst
  exact hFirst.1

theorem eq_of_memcpy {r : Unit} (h : memcpy index offset data log = (.ok r, after)) :
    after = log ++ (positionsIn index offset data.length).zip data := by
  unfold memcpy at h
  split_ifs at h
  · exact (congrArg Prod.snd h).symm
  · cases congrArg Prod.fst h

/-- Where the loop has room in a chunk, the first byte goes to the offset there. -/
theorem copyLoop_enters (hRoom : sizeSub (c.size + c.first) offset ≠ 0) (hData : data ≠ [])
    (h : s.copyLoop type index (c :: rest) offset data log = (.ok q, after)) :
    ∃ b more, after = log ++ (⟨index, offset⟩, b) :: more := by
  obtain ⟨b, data, rfl⟩ := List.exists_cons_of_ne_nil hData
  obtain ⟨k, hk⟩ : ∃ k, min (b :: data).length (sizeSub (c.size + c.first) offset) = k + 1 :=
    Nat.exists_eq_succ_of_ne_zero (by rw [List.length_cons]; omega)
  rw [copyLoop.eq_def] at h
  dsimp only at h
  obtain ⟨r, written, hCopy, hMore⟩ := Effectful.bind_eq_ok h
  have hKept : written <+: after := by
    refine (congrArg (written <+: ·.2) hMore).mp ?_
    split_ifs
    · exact keeps_positionAfter written written (List.prefix_refl written)
    · exact keeps_copyLoop written written (List.prefix_refl written)
  have hWritten := eq_of_memcpy hCopy
  rw [hk, List.take_succ_cons, List.length_cons, positionsIn_succ, List.zip_cons_cons] at hWritten
  obtain ⟨more, rfl⟩ := hKept
  exact ⟨b, _, by rw [hWritten, List.append_assoc, List.cons_append]⟩

/-- Where there is none, it comes to the next chunk. -/
theorem copyLoop_passes (hRoom : sizeSub (c.size + c.first) offset = 0) (hData : data ≠ [])
    (h : s.copyLoop type index (c :: rest) offset data log = (.ok q, after)) :
    ∃ next, s.copyLoop type (index + 1) rest next data log = (.ok q, after) := by
  have hLength := List.length_pos_iff.mpr hData
  rw [copyLoop.eq_def] at h
  dsimp only at h
  rw [hRoom, Nat.min_zero, List.take_zero, List.drop_zero, if_neg (by omega)] at h
  obtain ⟨r, written, hCopy, hMore⟩ := Effectful.bind_eq_ok h
  obtain rfl := eq_of_memcpy hCopy
  rw [List.zip_nil_right, List.append_nil] at hMore
  exact ⟨_, hMore⟩

/-- The first byte goes to a chunk from there on. -/
theorem copyLoop_first (hData : data ≠ []) (h : s.copyLoop type index ranges offset data log = (.ok q, after)) :
    ∃ p b more, after = log ++ (p, b) :: more ∧ index ≤ p.chunkIndex := by
  induction ranges generalizing index offset with
  | nil => cases congrArg Prod.fst h
  | cons c rest ih =>
      by_cases hRoom : sizeSub (c.size + c.first) offset = 0
      · obtain ⟨next, hNext⟩ := copyLoop_passes hRoom hData h
        obtain ⟨p, b, more, hAfter, hp⟩ := ih hNext
        exact ⟨p, b, more, hAfter, (Nat.le_succ index).trans hp⟩
      · obtain ⟨b, more, hAfter⟩ := copyLoop_enters hRoom hData h
        exact ⟨_, b, more, hAfter, Nat.le_refl index⟩

/-- The first position behind some chunks. -/
theorem position_front (hRanges : s.ranges = front ++ c :: back)
    (hp : s.positions[totalSize ChunkRange.size front]? = some p) :
    c.size = 0 ∧ front.length < p.chunkIndex ∨ 0 < c.size ∧ p = ⟨front.length, c.first⟩ := by
  have hDrop := drop_positions hRanges 0
  rw [Nat.add_zero, List.drop_zero] at hDrop
  have hHead : (positionsFrom front.length (c :: back))[0]? = some p := by
    rw [← hDrop, List.getElem?_drop, Nat.add_zero, hp]
  rw [positionsFrom] at hHead
  rcases Nat.eq_zero_or_pos c.size with hEmpty | hPos
  · rw [hEmpty] at hHead
    exact .inl ⟨hEmpty, chunkIndex_ge (List.mem_of_getElem? hHead)⟩
  · obtain ⟨k, hk⟩ := Nat.exists_eq_succ_of_ne_zero hPos.ne'
    rw [hk, positionsIn_succ] at hHead
    exact .inr ⟨hPos, (Option.some.inj hHead).symm⟩

/-- A value that is written from a position too far on misses its own. -/
theorem copyType_misses (hStart : s.Shifted n p) (value : type.Value)
    (h : s.copyType type value (true, p) log = (.ok q, after)) : s.Misses n log after := by
  obtain ⟨front, c, back, t, hRanges, rfl, hPos, hLe, rfl⟩ := hStart
  have hStorage := c.fits
  have hSmall : chunkSize < 2 ^ 64 := by decide
  rw [copyType_eq hRanges] at h
  by_cases hRoom : sizeSub (c.size + c.first) (c.first + t) = 0
  · -- the position is the end of the chunk
    have hEnd : t = c.size := by
      unfold sizeSub at hRoom
      split_ifs at hRoom <;> omega
    obtain ⟨next, hNext⟩ := copyLoop_passes hRoom value.bytes_ne_nil h
    obtain ⟨p, b, more, hAfter, hp⟩ := copyLoop_first value.bytes_ne_nil hNext
    refine ⟨p, b, more, hAfter, fun hSame => ?_⟩
    rcases position_front hRanges hSame with ⟨hEmpty, -⟩ | ⟨-, rfl⟩
    · omega
    · exact absurd hp (Nat.not_succ_le_self _)
  · obtain ⟨b, more, hAfter⟩ := copyLoop_enters hRoom value.bytes_ne_nil h
    refine ⟨_, b, more, hAfter, fun hSame => ?_⟩
    rcases position_front hRanges hSame with ⟨-, hLess⟩ | ⟨-, hFirst⟩
    · exact absurd hLess (Nat.lt_irrefl _)
    · have hIndex := congrArg SpanPosition.spanIndex hFirst
      dsimp only at hIndex
      omega

/-- So does an array. -/
theorem copySpan_misses {value : type.Value} {array : List type.Value} (hStart : s.Shifted n p)
    (h : s.copySpan type (value :: array) (true, p) log = (.ok q, after)) : s.Misses n log after := by
  rw [copySpan] at h
  obtain ⟨next, written, hFirst, hRest⟩ := Effectful.bind_eq_ok h
  have hKept := keeps_copySpan (s := s) written array (true, next) written (List.prefix_refl written)
  rw [hRest] at hKept
  exact (copyType_misses hStart value hFirst).trans hKept

/-- When `copy_span` writes to all the positions that it should, no element but the last one ends with a filled chunk. -/
theorem unfilled_of_copySpan {array : List type.Value} (hStart : s.Continues n p) (hFits : n + array.length * type.size ≤ s.size)
    (h : s.copySpan type array (true, p) log = (.ok q, log ++ (s.positions.drop n).zip (arrayBytes array))) :
    ∀ i, 0 < i → i < array.length → ¬s.FilledAt (n + i * type.size) := by
  induction array generalizing n p log with
  | nil => exact fun i _ hi => absurd hi (Nat.not_lt_zero i)
  | cons value rest ih =>
      have hType := type.size_pos
      rw [List.length_cons, Nat.succ_mul] at hFits
      obtain ⟨next, hFirst, hBehind⟩ := copyType_spec hStart value (by omega) log
      rw [copySpan, Effectful.bind_ok hFirst, arrayBytes_cons, zip_append_drop, value.2, List.drop_drop, ← List.append_assoc] at h
      intro i hPos hi
      cases rest with
      | nil =>
          rw [List.length_singleton] at hi
          omega
      | cons second rest =>
          rw [List.length_cons, Nat.succ_mul] at hFits
          have hUnfilled : ¬s.FilledAt (n + type.size) := fun hFilled =>
            not_misses _ _ _ _ (copySpan_misses (hBehind.shifted hFilled (by omega)) h)
          obtain ⟨k, rfl⟩ := Nat.exists_eq_succ_of_ne_zero hPos.ne'
          rcases Nat.eq_zero_or_pos k with rfl | hLater
          · rwa [Nat.succ_mul, Nat.zero_mul, Nat.zero_add]
          · have hNext := ih (hBehind.continues hUnfilled) (by rw [List.length_cons, Nat.succ_mul]; omega) h k hLater
              (Nat.lt_of_succ_lt_succ hi)
            rwa [Nat.succ_mul, Nat.add_comm (k * type.size), ← Nat.add_assoc]

end Misplaced

end StoredSpan

end Wwatp
