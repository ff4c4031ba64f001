import Wwatp.Tree.SpanIterator

/-! `const_iterator`, which keeps the values that it has put together, one for each chunk. -/
namespace Wwatp

open Cxx

/-- A `const_iterator`; the bytes of the values in `chunk_stitches`. -/
structure ConstIterator where
  position : SpanPosition
  chunkStitches : List (List UInt8)

namespace SharedSpan

/-- `*it` of a `const_iterator<PODType>`. -/
def constDereference (s : SharedSpan) (address : ℕ → ℕ) (type : PodType) (it : ConstIterator) :
    Outcome (List UInt8 × ConstIterator) :=
  let chunkIndex := it.position.chunkIndex
  let spanIndex := it.position.spanIndex
  match s.chunks[chunkIndex]? with
  | none => throw (.undefined .index)
  | some c =>
    if c.data.length < spanIndex + type.size then
      if it.chunkStitches.length < chunkIndex + 1 then
        if it.chunkStitches.length < chunkIndex then
          throw (.invalidArgument (str "When dereferencing chunks, must dereference spanning chunks in order."))
        else do
          let value ← s.podFrom type it.position
          return (value, { it with chunkStitches := it.chunkStitches ++ [value] })
      else return (it.chunkStitches.getD chunkIndex [], it)
    else if (address chunkIndex + spanIndex) % type.alignment = 0 then
      return ((c.data.drop spanIndex).take type.size, it)
    else do
      let missing := List.replicate (chunkIndex + 1 - it.chunkStitches.length) (List.replicate type.size (0 : UInt8))
      let value ← s.podFrom type it.position
      return (value, { it with chunkStitches := (it.chunkStitches ++ missing).set chunkIndex value })

/-- `for (auto it = cbegin(); it != cend(); ++it)` with one `*it` in each round. -/
def walk (s : SharedSpan) (address : ℕ → ℕ) (type : PodType) : ℕ → ConstIterator → Outcome (List (List UInt8))
  | 0, _ => throw (.undefined .nonTermination)
  | fuel + 1, it =>
    if it.position = s.endPosition then .ok []
    else do
      let (value, it) ← s.constDereference address type it
      let next ← s.increment type it.position
      let rest ← walk s address type fuel { it with position := next }
      return value :: rest

/-- The chunk that a byte is in. -/
def chunkIndexAt (s : SharedSpan) (n : ℕ) : ℕ := (locate 0 s.chunks n).chunkIndex

/-- The value that starts at a byte. -/
def valueAt (s : SharedSpan) (type : PodType) (n : ℕ) : List UInt8 := (s.bytes.drop n).take type.size

/-- The last byte of a value is in another chunk than the first. -/
def Straddles (s : SharedSpan) (type : PodType) (n : ℕ) : Prop :=
  s.chunkIndexAt (n + type.size - 1) ≠ s.chunkIndexAt n

instance (s : SharedSpan) (type : PodType) (n : ℕ) : Decidable (s.Straddles type n) := inferInstanceAs (Decidable (_ ≠ _))

/-- The address of a value is no multiple of the alignment. -/
def Unaligned (s : SharedSpan) (address : ℕ → ℕ) (type : PodType) (n : ℕ) : Prop :=
  ¬type.alignment ∣ address (s.chunkIndexAt n) + (locate 0 s.chunks n).spanIndex

instance (s : SharedSpan) (address : ℕ → ℕ) (type : PodType) (n : ℕ) : Decidable (s.Unaligned address type n) :=
  inferInstanceAs (Decidable (¬_ ∣ _))

/-- Before a place, a value that starts in a chunk has been put together: it straddles or is unaligned. -/
def Stitched (s : SharedSpan) (address : ℕ → ℕ) (type : PodType) (n chunkIndex : ℕ) : Prop :=
  ∃ m < n, type.size ∣ m ∧ s.chunkIndexAt m = chunkIndex ∧ (s.Straddles type m ∨ s.Unaligned address type m)

/-- The value before a place starts in the same chunk and is unaligned. -/
def AfterUnaligned (s : SharedSpan) (address : ℕ → ℕ) (type : PodType) (n : ℕ) : Prop :=
  type.size ≤ n ∧ s.chunkIndexAt (n - type.size) = s.chunkIndexAt n ∧ s.Unaligned address type n

/-- A straddling value comes out right: the entry of its chunk holds an equal value, or it is the next entry. -/
def Served (s : SharedSpan) (address : ℕ → ℕ) (type : PodType) (n : ℕ) : Prop :=
  (s.AfterUnaligned address type n → s.valueAt type (n - type.size) = s.valueAt type n) ∧
    (¬s.AfterUnaligned address type n →
      s.chunkIndexAt n = 0 ∨ s.Stitched address type n (s.chunkIndexAt n - 1))

section Layout

variable {s : SharedSpan} {address : ℕ → ℕ} {type : PodType} {front back : List Chunk} {c : Chunk} {index n m o d : ℕ}

theorem le_chunkIndex_locate (index : ℕ) (chunks : List Chunk) (n : ℕ) : index ≤ (locate index chunks n).chunkIndex := by
  induction chunks generalizing index n with
  | nil => exact Nat.le_refl _
  | cons c rest ih =>
      rw [locate]
      split_ifs
      · exact Nat.le_refl _
      · exact (Nat.le_succ index).trans (ih (index + 1) (n - c.size))

theorem chunkIndexAt_split (hChunks : s.chunks = front ++ c :: back) (ho : o < c.size) :
    s.chunkIndexAt (chunksSize front + o) = front.length := by
  rw [chunkIndexAt, locate_split hChunks ho]

/-- Behind the chunk of a byte are the later ones. -/
theorem lt_chunkIndexAt (hChunks : s.chunks = front ++ c :: back) (ho : c.size ≤ o) :
    front.length < s.chunkIndexAt (chunksSize front + o) := by
  rw [chunkIndexAt, hChunks, locate_append, Nat.zero_add, locate, if_neg (not_lt.mpr ho)]
  exact le_chunkIndex_locate ..

theorem chunkIndexAt_mono (h : n ≤ m) : s.chunkIndexAt n ≤ s.chunkIndexAt m := by
  by_cases hn : n < s.size
  · obtain ⟨front, c, back, o, hChunks, ho, rfl⟩ := exists_chunk hn
    obtain ⟨d, rfl⟩ := Nat.exists_eq_add_of_le h
    rw [chunkIndexAt_split hChunks ho, Nat.add_assoc]
    rcases Nat.lt_or_ge (o + d) c.size with hInside | hBehind
    · rw [chunkIndexAt_split hChunks hInside]
    · exact (lt_chunkIndexAt hChunks hBehind).le
  · have hEnd : ∀ k, s.size ≤ k → s.chunkIndexAt k = s.chunks.length := by
      intro k hk
      rw [chunkIndexAt, locate_of_le hk, Nat.zero_add]
    rw [hEnd n (not_lt.mp hn), hEnd m ((not_lt.mp hn).trans h)]

/-- Two bytes of one chunk are as far apart in it as in the span. -/
theorem spanIndex_of_same (hn : n < s.size) (h : n ≤ m) (hSame : s.chunkIndexAt m = s.chunkIndexAt n) :
    (locate 0 s.chunks m).spanIndex = (locate 0 s.chunks n).spanIndex + (m - n) := by
  obtain ⟨front, c, back, o, hChunks, ho, rfl⟩ := exists_chunk hn
  obtain ⟨d, rfl⟩ := Nat.exists_eq_add_of_le h
  rw [chunkIndexAt_split hChunks ho, Nat.add_assoc] at hSame
  rcases Nat.lt_or_ge (o + d) c.size with hInside | hBehind
  · rw [Nat.add_assoc, locate_split hChunks hInside, locate_split hChunks ho]
    dsimp only
    omega
  · exact absurd hSame (lt_chunkIndexAt hChunks hBehind).ne'

/-- In one chunk all the values are aligned or none is. -/
theorem unaligned_of_same (hn : n < s.size) (h : n ≤ m) (hSame : s.chunkIndexAt m = s.chunkIndexAt n)
    (hValues : type.size ∣ m - n) : s.Unaligned address type m ↔ s.Unaligned address type n := by
  have hShift : type.alignment ∣ m - n := type.aligned.trans hValues
  rw [Unaligned, Unaligned, spanIndex_of_same hn h hSame, hSame, ← Nat.add_assoc, Nat.dvd_add_left hShift]

theorem straddles_split (hChunks : s.chunks = front ++ c :: back) (ho : o < c.size) :
    s.Straddles type (chunksSize front + o) ↔ c.size < o + type.size := by
  have hType := type.size_pos
  have hLast : chunksSize front + o + type.size - 1 = chunksSize front + (o + (type.size - 1)) := by omega
  rw [Straddles, chunkIndexAt_split hChunks ho, hLast]
  rcases Nat.lt_or_ge (o + (type.size - 1)) c.size with hInside | hBehind
  · rw [chunkIndexAt_split hChunks hInside]
    simp only [ne_eq, not_true_eq_false, false_iff]
    omega
  · have hLater := lt_chunkIndexAt hChunks hBehind
    simp only [ne_eq, hLater.ne', not_false_eq_true, true_iff]
    omega

/-- A value in front of another one in the same chunk does not straddle. -/
theorem not_straddles_of_same (hBefore : m + type.size ≤ n) (hSame : s.chunkIndexAt m = s.chunkIndexAt n) :
    ¬s.Straddles type m := by
  have hType := type.size_pos
  have hLow := s.chunkIndexAt_mono (n := m) (m := m + type.size - 1) (by omega)
  have hHigh := s.chunkIndexAt_mono (n := m + type.size - 1) (m := n) (by omega)
  rw [Straddles, not_not]
  omega

end Layout

section Steps

variable {s : SharedSpan} {address : ℕ → ℕ} {type : PodType} {stitches : List (List UInt8)} {n m k : ℕ}

/-- What `*it` gives at a value of the span, and what it keeps. -/
theorem constDereference_locate (h : n + type.size ≤ s.size) :
    s.constDereference address type ⟨locate 0 s.chunks n, stitches⟩ =
      if s.Straddles type n then
        if stitches.length < s.chunkIndexAt n + 1 then
          if stitches.length < s.chunkIndexAt n then
            throw (.invalidArgument (str "When dereferencing chunks, must dereference spanning chunks in order."))
          else .ok (s.valueAt type n, ⟨locate 0 s.chunks n, stitches ++ [s.valueAt type n]⟩)
        else .ok (stitches.getD (s.chunkIndexAt n) [], ⟨locate 0 s.chunks n, stitches⟩)
      else if s.Unaligned address type n then
        .ok (s.valueAt type n, ⟨locate 0 s.chunks n, (stitches ++ List.replicate (s.chunkIndexAt n + 1 - stitches.length)
          (List.replicate type.size 0)).set (s.chunkIndexAt n) (s.valueAt type n)⟩)
      else .ok (s.valueAt type n, ⟨locate 0 s.chunks n, stitches⟩) := by
  have hType := type.size_pos
  have hPod := podFrom_locate type h
  obtain ⟨front, c, back, o, hChunks, ho, rfl⟩ := exists_chunk (s := s) (n := n) (by omega)
  have hHere := locate_split hChunks ho
  have hFirst := c.first_le
  have hEnd : c.size = c.data.length - c.first := rfl
  have hGet : s.chunks[front.length]? = some c := getElem?_of_split hChunks
  have hPast : c.data.length < c.first + o + type.size ↔ s.Straddles type (chunksSize front + o) := by
    rw [straddles_split hChunks ho]
    omega
  have hAligned : (address front.length + (c.first + o)) % type.alignment = 0 ↔
      ¬s.Unaligned address type (chunksSize front + o) := by
    rw [Unaligned, not_not, chunkIndexAt_split hChunks ho, hHere, Nat.dvd_iff_mod_eq_zero]
  rw [hHere] at hPod
  rw [constDereference, hHere, chunkIndexAt_split hChunks ho]
  simp only [hGet, hPast, hAligned, hPod, Outcome.ok_bind, Outcome.pure_eq_ok]
  by_cases hStraddles : s.Straddles type (chunksSize front + o)
  · simp only [if_pos hStraddles, valueAt]
  · have hInside : o + type.size ≤ c.size := by
      rw [straddles_split hChunks ho] at hStraddles
      omega
    have hValue : (c.data.drop (c.first + o)).take type.size = s.valueAt type (chunksSize front + o) := by
      have hBody : c.data.drop (c.first + o) = c.body.drop o := by
        rw [Chunk.body, List.drop_drop]
      rw [valueAt, drop_bytes hChunks ho.le, hBody, List.take_append_of_le_length]
      rw [List.length_drop, Chunk.body_length]
      omega
    simp only [if_neg hStraddles, hValue]
    by_cases hUnaligned : s.Unaligned address type (chunksSize front + o)
    · simp only [hUnaligned, not_true_eq_false, if_false, if_true]
      rfl
    · simp only [hUnaligned, not_false_eq_true, if_true, if_false]

theorem stitched_le (h : s.Stitched address type n k) : k ≤ s.chunkIndexAt n := by
  obtain ⟨m, hLess, -, rfl, -⟩ := h
  exact chunkIndexAt_mono hLess.le

theorem stitched_add (hn : type.size ∣ n) : s.Stitched address type (n + type.size) k ↔
    s.Stitched address type n k ∨ (s.chunkIndexAt n = k ∧ (s.Straddles type n ∨ s.Unaligned address type n)) := by
  have hType := type.size_pos
  constructor
  · rintro ⟨m, hLess, hm, hChunk, hEvent⟩
    rcases Nat.lt_or_ge m n with hBefore | hFrom
    · exact .inl ⟨m, hBefore, hm, hChunk, hEvent⟩
    · obtain rfl : m = n := by
        have hDifference : type.size ∣ m - n := Nat.dvd_sub hm hn
        have hZero := Nat.eq_zero_of_dvd_of_lt hDifference (by omega)
        omega
      exact .inr ⟨hChunk, hEvent⟩
  · rintro (⟨m, hLess, hm, hChunk, hEvent⟩ | ⟨hChunk, hEvent⟩)
    · exact ⟨m, by omega, hm, hChunk, hEvent⟩
    · exact ⟨n, by omega, hn, hChunk, hEvent⟩

/-- The entries before a place: as many as the chunks up to the last one with a value that was put together, and for the
value before it, if it is unaligned, its own. -/
structure Stitches (s : SharedSpan) (address : ℕ → ℕ) (type : PodType) (n : ℕ) (stitches : List (List UInt8)) : Prop where
  reached : ∀ k, s.Stitched address type n k → k < stitches.length
  last : ∀ k, stitches.length = k + 1 → s.Stitched address type n k
  held : ∀ m, m + type.size = n → ¬s.Straddles type m → s.Unaligned address type m →
    stitches[s.chunkIndexAt m]? = some (s.valueAt type m)

/-- An entry that is there already is of an unaligned value right before, in the same chunk. -/
theorem afterUnaligned_of_stitched (hn : type.size ∣ n) (hLess : n < s.size)
    (h : s.Stitched address type n (s.chunkIndexAt n)) :
    s.AfterUnaligned address type n ∧ ¬s.Straddles type (n - type.size) ∧ s.Unaligned address type (n - type.size) := by
  have hType := type.size_pos
  obtain ⟨m, hBefore, hm, hChunk, hEvent⟩ := h
  have hDifference : type.size ∣ n - m := Nat.dvd_sub hn hm
  have hStep : m + type.size ≤ n := by
    have hLe := Nat.le_of_dvd (by omega) hDifference
    omega
  have hUnaligned : s.Unaligned address type m := hEvent.resolve_left (not_straddles_of_same hStep hChunk)
  have hHere : s.Unaligned address type n :=
    (unaligned_of_same (by omega) hBefore.le hChunk.symm hDifference).mpr hUnaligned
  have hLow := s.chunkIndexAt_mono (n := m) (m := n - type.size) (by omega)
  have hHigh := s.chunkIndexAt_mono (n := n - type.size) (m := n) (by omega)
  have hSame : s.chunkIndexAt (n - type.size) = s.chunkIndexAt n := by omega
  refine ⟨⟨by omega, hSame, hHere⟩, not_straddles_of_same (by omega) hSame, ?_⟩
  refine (unaligned_of_same (n := n - type.size) (m := n) (by omega) (by omega) hSame.symm ?_).mp hHere
  rw [Nat.sub_sub_self (by omega)]

theorem stitched_of_afterUnaligned (hn : type.size ∣ n) (hLess : n < s.size) (h : s.AfterUnaligned address type n) :
    s.Stitched address type n (s.chunkIndexAt n) := by
  have hType := type.size_pos
  obtain ⟨hLe, hSame, hUnaligned⟩ := h
  refine ⟨n - type.size, by omega, Nat.dvd_sub hn (Nat.dvd_refl _), hSame, .inr ?_⟩
  refine (unaligned_of_same (n := n - type.size) (m := n) (by omega) (by omega) hSame.symm ?_).mp hUnaligned
  rw [Nat.sub_sub_self hLe]

/-- Without an entry of its own yet, a straddling value is served just if its entry is the next. -/
theorem served_iff_of_not_stitched (h : Stitches s address type n stitches) (hn : type.size ∣ n) (hLess : n < s.size)
    (hNew : stitches.length ≤ s.chunkIndexAt n) :
    s.Served address type n ↔ stitches.length = s.chunkIndexAt n := by
  have hNone : ¬s.AfterUnaligned address type n := fun hAfter =>
    absurd (h.reached _ (stitched_of_afterUnaligned hn hLess hAfter)) (not_lt.mpr hNew)
  rw [Served]
  simp only [hNone, false_implies, true_and, not_false_eq_true, true_implies]
  constructor
  · rintro (hZero | hBefore)
    · omega
    · have hReached := h.reached _ hBefore
      omega
  · intro hLength
    rcases Nat.eq_zero_or_pos (s.chunkIndexAt n) with hZero | hPos
    · exact .inl hZero
    · exact .inr (h.last _ (by omega))

theorem served_iff_of_stitched (h : Stitches s address type n stitches) (hn : type.size ∣ n) (hLess : n < s.size)
    (hOld : s.chunkIndexAt n < stitches.length) :
    s.Served address type n ↔ stitches.getD (s.chunkIndexAt n) [] = s.valueAt type n := by
  have hStitched : s.Stitched address type n (s.chunkIndexAt n) := by
    obtain ⟨k, hk⟩ := Nat.exists_eq_succ_of_ne_zero (Nat.ne_zero_of_lt hOld)
    have hLast := h.last k hk
    have hLe := stitched_le hLast
    obtain rfl : k = s.chunkIndexAt n := by omega
    exact hLast
  obtain ⟨hAfter, hInside, hUnaligned⟩ := afterUnaligned_of_stitched hn hLess hStitched
  have hHeld := h.held (n - type.size) (Nat.sub_add_cancel hAfter.1) hInside hUnaligned
  rw [hAfter.2.1] at hHeld
  rw [Served]
  simp only [hAfter, true_implies, not_true_eq_false, false_implies, and_true]
  rw [List.getD_eq_getElem?_getD, hHeld, Option.getD_some]

/-- A step keeps the entries as they should be, as long as a value that straddles does not fail. -/
theorem constDereference_step (h : Stitches s address type n stitches) (hn : type.size ∣ n) (hFits : n + type.size ≤ s.size) :
    (∃ value next, s.constDereference address type ⟨locate 0 s.chunks n, stitches⟩ =
        .ok (value, ⟨locate 0 s.chunks n, next⟩) ∧ Stitches s address type (n + type.size) next ∧
        (value = s.valueAt type n ↔ (s.Straddles type n → s.Served address type n))) ∨
      ((∃ fault, s.constDereference address type ⟨locate 0 s.chunks n, stitches⟩ = .error fault) ∧
        s.Straddles type n ∧ ¬s.Served address type n) := by
  have hType := type.size_pos
  have hLess : n < s.size := by omega
  have hBound : stitches.length ≤ s.chunkIndexAt n + 1 := by
    cases hLength : stitches.length with
    | zero => exact Nat.zero_le _
    | succ k => exact Nat.succ_le_succ (stitched_le (h.last k hLength))
  rw [constDereference_locate hFits]
  by_cases hStraddles : s.Straddles type n
  · rw [if_pos hStraddles]
    simp only [hStraddles, true_implies, true_and]
    rcases Nat.lt_trichotomy stitches.length (s.chunkIndexAt n) with hShort | hNext | hOld
    · rw [if_pos (by omega), if_pos hShort, served_iff_of_not_stitched h hn hLess hShort.le]
      exact .inr ⟨⟨_, rfl⟩, hShort.ne⟩
    · rw [if_pos (by omega), if_neg (by omega), served_iff_of_not_stitched h hn hLess hNext.le]
      refine .inl ⟨_, _, rfl, ⟨fun k hk => ?_, fun k hk => ?_, fun m hm hInside _ => ?_⟩, iff_of_true rfl hNext⟩
      · rw [List.length_append, List.length_singleton]
        rcases (stitched_add hn).mp hk with hBefore | ⟨rfl, -⟩
        · exact (h.reached k hBefore).trans (Nat.lt_succ_self _)
        · omega
      · rw [List.length_append, List.length_singleton] at hk
        exact (stitched_add hn).mpr (.inr ⟨by omega, .inl hStraddles⟩)
      · obtain rfl : m = n := by omega
        exact absurd hStraddles hInside
    · rw [if_neg (by omega), served_iff_of_stitched h hn hLess hOld]
      refine .inl ⟨_, _, rfl, ⟨fun k hk => ?_, fun k hk => ?_, fun m hm hInside _ => ?_⟩, Iff.rfl⟩
      · rcases (stitched_add hn).mp hk with hBefore | ⟨rfl, -⟩
        · exact h.reached k hBefore
        · exact hOld
      · exact (stitched_add hn).mpr (.inl (h.last k hk))
      · obtain rfl : m = n := by omega
        exact absurd hStraddles hInside
  · rw [if_neg hStraddles]
    simp only [hStraddles, false_implies, false_and, and_false, or_false, iff_true]
    by_cases hUnaligned : s.Unaligned address type n
    · rw [if_pos hUnaligned]
      refine ⟨_, _, rfl, ⟨fun k hk => ?_, fun k hk => ?_, fun m hm _ _ => ?_⟩, rfl⟩
      · have hLe : k ≤ s.chunkIndexAt n := by
          rcases (stitched_add hn).mp hk with hBefore | ⟨rfl, -⟩
          · exact stitched_le hBefore
          · exact Nat.le_refl _
        simp only [List.length_set, List.length_append, List.length_replicate]
        omega
      · simp only [List.length_set, List.length_append, List.length_replicate] at hk
        exact (stitched_add hn).mpr (.inr ⟨by omega, .inr hUnaligned⟩)
      · obtain rfl : m = n := by omega
        apply List.getElem?_set_self
        simp only [List.length_append, List.length_replicate]
        omega
    · rw [if_neg hUnaligned]
      have hSame : ∀ k, s.Stitched address type (n + type.size) k ↔ s.Stitched address type n k := by
        intro k
        rw [stitched_add hn]
        simp only [hStraddles, hUnaligned, or_self, and_false, or_false]
      refine ⟨_, _, rfl, ⟨fun k hk => h.reached k ((hSame k).mp hk), fun k hk => (hSame k).mpr (h.last k hk),
        fun m hm _ hUnaligned' => ?_⟩, rfl⟩
      obtain rfl : m = n := by omega
      exact absurd hUnaligned' hUnaligned

end Steps

section Walk

variable {s : SharedSpan} {address : ℕ → ℕ} {type : PodType} {stitches : List (List UInt8)} {n count : ℕ}

/-- From a place on the walk gives the values exactly when each of those that straddle is served. -/
theorem walk_locate_iff (h : Stitches s address type n stitches) (hn : type.size ∣ n)
    (hCount : n + count * type.size = s.size) :
    (∃ fuel, s.walk address type fuel ⟨locate 0 s.chunks n, stitches⟩ = .ok ((s.bytes.drop n).blocks type.size)) ↔
      ∀ m, n ≤ m → m < s.size → type.size ∣ m → s.Straddles type m → s.Served address type m := by
  have hType := type.size_pos
  have hBytes := s.size_eq_bytes_length
  induction count generalizing n stitches with
  | zero =>
      have hEnd : n = s.size := by omega
      have hNil : s.bytes.drop n = [] := List.drop_of_length_le (by omega)
      constructor
      · intro _ m hFrom hLess
        omega
      · intro _
        refine ⟨1, ?_⟩
        rw [walk, if_pos ((locate_eq_end_iff hEnd.le).mpr hEnd), hNil, List.blocks_nil]
  | succ count ih =>
      rw [Nat.succ_mul] at hCount
      have hFits : n + type.size ≤ s.size := by omega
      have hNe : s.bytes.drop n ≠ [] := by
        rw [Ne, List.drop_eq_nil_iff]
        omega
      have hBlocks : (s.bytes.drop n).blocks type.size =
          s.valueAt type n :: (s.bytes.drop (n + type.size)).blocks type.size := by
        rw [List.blocks_of_ne_nil hType hNe, List.drop_drop]
        rfl
      have hGoesOn : locate 0 s.chunks n ≠ s.endPosition := by
        rw [Ne, locate_eq_end_iff (by omega)]
        omega
      have hSplit : (∀ m, n ≤ m → m < s.size → type.size ∣ m → s.Straddles type m → s.Served address type m) ↔
          (s.Straddles type n → s.Served address type n) ∧
            ∀ m, n + type.size ≤ m → m < s.size → type.size ∣ m → s.Straddles type m → s.Served address type m := by
        constructor
        · intro hAll
          exact ⟨hAll n (Nat.le_refl n) (by omega) hn, fun m hm => hAll m (by omega)⟩
        · rintro ⟨hFirst, hRest⟩ m hFrom hLess hm
          rcases Nat.lt_or_ge m (n + type.size) with hNear | hFar
          · have hZero := Nat.eq_zero_of_dvd_of_lt (Nat.dvd_sub hm hn) (by omega)
            obtain rfl : m = n := by omega
            exact hFirst
          · exact hRest m hFar hLess hm
      rw [hBlocks, hSplit]
      rcases constDereference_step h hn hFits with ⟨value, next, hRead, hNext, hValue⟩ | ⟨⟨fault, hFault⟩, hStraddles, hNot⟩
      · have hLater := ih hNext (Nat.dvd_add hn (Nat.dvd_refl _)) (by omega)
        refine Iff.trans ?_ (and_congr hValue hLater)
        have hWalk : ∀ fuel, s.walk address type (fuel + 1) ⟨locate 0 s.chunks n, stitches⟩ = (do
            let rest ← s.walk address type fuel ⟨locate 0 s.chunks (n + type.size), next⟩
            return value :: rest) := by
          intro fuel
          rw [walk, if_neg hGoesOn, hRead, Outcome.ok_bind]
          dsimp only
          rw [increment_locate type hFits, Outcome.ok_bind]
        constructor
        · rintro ⟨fuel, hFuel⟩
          cases fuel with
          | zero => cases hFuel
          | succ fuel =>
              rw [hWalk] at hFuel
              obtain ⟨rest, hRest, hSame⟩ := Outcome.bind_eq_ok.mp hFuel
              obtain ⟨hFirst, hOthers⟩ := List.cons_eq_cons.mp (Except.ok.inj hSame)
              exact ⟨hFirst, fuel, hOthers ▸ hRest⟩
        · rintro ⟨hFirst, fuel, hRest⟩
          refine ⟨fuel + 1, ?_⟩
          rw [hWalk, hRest, hFirst]
          rfl
      · constructor
        · rintro ⟨fuel, hFuel⟩
          cases fuel with
          | zero => cases hFuel
          | succ fuel =>
              rw [walk, if_neg hGoesOn, hFault] at hFuel
              cases hFuel
        · rintro ⟨hFirst, -⟩
          exact absurd (hFirst hStraddles) hNot

theorem stitches_begin : Stitches s address type 0 [] where
  reached _ hk := by
    obtain ⟨m, hLess, -⟩ := hk
    exact absurd hLess (Nat.not_lt_zero m)
  last _ hk := nomatch hk
  held m hm := by
    have hType := type.size_pos
    omega

/-- The walk from the start to the end gives the values of the bytes exactly when each that straddles is served. -/
theorem walk_iff (hMultiple : type.size ∣ s.size) :
    (∃ fuel, s.walk address type fuel ⟨s.beginPosition, []⟩ = .ok (s.bytes.blocks type.size)) ↔
      ∀ n < s.size, type.size ∣ n → s.Straddles type n → s.Served address type n := by
  obtain ⟨count, hCount⟩ := hMultiple
  have hLength : 0 + count * type.size = s.size := by rw [hCount, Nat.zero_add, Nat.mul_comm]
  have hBegin : Stitches s address type 0 [] := stitches_begin
  have hWalk := walk_locate_iff hBegin (Nat.dvd_zero type.size) hLength
  rw [List.drop_zero] at hWalk
  rw [beginPosition_eq, hWalk]
  exact ⟨fun h n => h n (Nat.zero_le n), fun h n _ => h n⟩

end Walk

end SharedSpan

end Wwatp
