import Wwatp.Tree.Properties

/-! Exactly when `restrict` keeps the bytes of its range. An empty chunk behind a chunk that is kept
makes the loop erase the front of the result, and the end of a range can wrap. -/
namespace Wwatp

open Cxx

namespace SharedSpan

/-- An empty chunk strictly inside a range: at least one byte of the range is in front of it, and the
range does not end there. -/
def EmptyInside (chunks : List Chunk) (start stop : ℕ) : Prop :=
  ∃ front c back, chunks = front ++ c :: back ∧ c.size = 0 ∧ start < chunksSize front ∧ chunksSize front < stop

section Loop

variable {done todo : List Chunk} {c : Chunk} {start length : ℕ}

theorem not_emptyInside_nil : ¬EmptyInside [] start length := by
  rintro ⟨front, c, back, hChunks, -⟩
  simp at hChunks

/-- Behind a chunk with a part in the range. -/
theorem emptyInside_cons_of_lt (h : start < c.size) (stop : ℕ) : EmptyInside (c :: todo) start stop ↔
    ∃ front d back, todo = front ++ d :: back ∧ d.size = 0 ∧ c.size + chunksSize front < stop := by
  constructor
  · rintro ⟨front, d, back, hChunks, hd, hStart, hStop⟩
    cases front with
    | nil => simp at hStart
    | cons first front =>
        obtain ⟨rfl, hTodo⟩ := List.cons_eq_cons.mp hChunks
        exact ⟨front, d, back, hTodo, hd, by simpa using hStop⟩
  · rintro ⟨front, d, back, rfl, hd, hStop⟩
    refine ⟨c :: front, d, back, rfl, hd, ?_, by simpa using hStop⟩
    rw [chunksSize_cons]
    omega

/-- Behind a chunk in front of the range. -/
theorem emptyInside_cons_of_le (h : c.size ≤ start) (stop : ℕ) :
    EmptyInside (c :: todo) start stop ↔ EmptyInside todo (start - c.size) (stop - c.size) := by
  constructor
  · rintro ⟨front, d, back, hChunks, hd, hStart, hStop⟩
    cases front with
    | nil => simp at hStart
    | cons first front =>
        obtain ⟨rfl, hTodo⟩ := List.cons_eq_cons.mp hChunks
        rw [chunksSize_cons] at hStart hStop
        exact ⟨front, d, back, hTodo, hd, by omega, by omega⟩
  · rintro ⟨front, d, back, rfl, hd, hStart, hStop⟩
    refine ⟨c :: front, d, back, rfl, hd, ?_, ?_⟩
    all_goals
      rw [chunksSize_cons]
      omega

theorem chunksSize_eq_length (chunks : List Chunk) : (chunks.flatMap Chunk.body).length = chunksSize chunks :=
  (chunksSize_eq chunks).symm

theorem size_sub (h : start + length ≤ c.size) : (c.sub start length).size = length := by
  rw [← Chunk.body_length, Chunk.body_sub h, List.length_take, List.length_drop, Chunk.body_length]
  omega

/-- Once a chunk is kept the result is no longer than what is left of the range. -/
theorem restrictLoop_le (done todo : List Chunk) (length : ℕ) :
    chunksSize (restrictLoop done todo 0 length) ≤ chunksSize done + min length (chunksSize todo) := by
  induction todo generalizing done length with
  | nil => simp [restrictLoop]
  | cons c todo ih =>
      rw [restrictLoop, chunksSize_cons]
      split_ifs with hEnds hEmpty
      · rw [chunksSize_append, chunksSize_cons, chunksSize_nil, size_sub (by omega)]
        omega
      · have hRest := ih (done ++ [c]).tail length
        have hTail : chunksSize (done ++ [c]).tail ≤ chunksSize done := by
          cases done with
          | nil => simp
          | cons d done => simp; omega
        rw [Nat.zero_sub]
        omega
      · have hRest := ih (done ++ [c.sub 0 (c.size - 0)]) (length - (c.size - 0))
        rw [chunksSize_append, chunksSize_cons, chunksSize_nil, size_sub (by omega)] at hRest
        omega

/-- As long as there is no empty chunk, the loop keeps what is left of the range. -/
theorem bytes_restrictLoop_kept (hLength : 0 < length)
    (h : ¬∃ front c back, todo = front ++ c :: back ∧ c.size = 0 ∧ chunksSize front < length) :
    (restrictLoop done todo 0 length).flatMap Chunk.body =
      done.flatMap Chunk.body ++ (todo.flatMap Chunk.body).take length := by
  induction todo generalizing done length with
  | nil => simp [restrictLoop]
  | cons c todo ih =>
      have hc : c.size ≠ 0 := fun hZero => h ⟨[], c, todo, rfl, hZero, by simpa using hLength⟩
      rw [restrictLoop, Nat.zero_add, if_neg (show ¬c.size ≤ 0 by omega)]
      split_ifs with hEnds
      · have hPart : (c.sub 0 length).body = (c.body.drop 0).take length := Chunk.body_sub (by omega)
        simp [hPart, List.take_append_of_le_length (show length ≤ c.body.length by simpa using hEnds)]
      · have hRest : ¬∃ front d back, todo = front ++ d :: back ∧ d.size = 0 ∧ chunksSize front < length - c.size := by
          rintro ⟨front, d, back, rfl, hd, hLess⟩
          refine h ⟨c :: front, d, back, rfl, hd, ?_⟩
          rw [chunksSize_cons]
          omega
        rw [Nat.sub_zero, c.sub_zero_size, ih (by omega) hRest]
        simp [List.take_append, List.take_of_length_le (show c.body.length ≤ length by simp; omega)]

/-- An empty chunk makes the loop erase the first chunk that it has kept. -/
theorem restrictLoop_lost {first : Chunk} (hFirst : 0 < first.size)
    (h : ∃ front c back, todo = front ++ c :: back ∧ c.size = 0 ∧ chunksSize front < length) :
    chunksSize (restrictLoop (first :: done) todo 0 length) <
      chunksSize (first :: done) + min length (chunksSize todo) := by
  induction todo generalizing done length with
  | nil =>
      obtain ⟨front, c, back, hTodo, -⟩ := h
      simp at hTodo
  | cons c todo ih =>
      obtain ⟨front, d, back, hTodo, hd, hLess⟩ := h
      rw [restrictLoop, Nat.zero_add]
      by_cases hc : c.size = 0
      · have hRest := restrictLoop_le (done ++ [c]) todo length
        rw [if_neg (by omega), if_pos (by omega), List.cons_append, List.tail_cons, Nat.zero_sub]
        simp only [chunksSize_append, chunksSize_cons, chunksSize_nil] at hRest ⊢
        omega
      · cases front with
        | nil =>
            obtain ⟨rfl, -⟩ := List.cons_eq_cons.mp hTodo
            exact absurd hd hc
        | cons other front =>
            obtain ⟨rfl, rfl⟩ := List.cons_eq_cons.mp hTodo
            rw [chunksSize_cons] at hLess
            have hLeft : chunksSize front < length - c.size := by omega
            have hRest : chunksSize (restrictLoop (first :: (done ++ [c])) (front.append (d :: back)) 0 (length - c.size)) < _ :=
              ih ⟨front, d, back, rfl, hd, hLeft⟩
            rw [if_neg (by omega), if_neg (by omega), Nat.sub_zero, c.sub_zero_size, List.cons_append]
            simp only [chunksSize_append, chunksSize_cons, chunksSize_nil] at hRest ⊢
            omega

/-- The loop keeps the bytes of a range exactly when no empty chunk is strictly inside. -/
theorem bytes_restrictLoop_iff :
    (restrictLoop [] todo start length).flatMap Chunk.body = ((todo.flatMap Chunk.body).drop start).take length ↔
      ¬EmptyInside todo start (start + length) := by
  induction todo generalizing start with
  | nil => simp [restrictLoop, not_emptyInside_nil]
  | cons c todo ih =>
      have hBody := c.body_length
      rw [restrictLoop]
      split_ifs with hEnds hBefore
      · -- the range ends in this chunk
        have hNone : ¬EmptyInside (c :: todo) start (start + length) := by
          rintro ⟨front, d, back, hChunks, hd, hStart, hStop⟩
          cases front with
          | nil => simp at hStart
          | cons first front =>
              obtain ⟨rfl, -⟩ := List.cons_eq_cons.mp hChunks
              rw [chunksSize_cons] at hStop
              omega
        simp only [hNone, not_false_eq_true, iff_true]
        rw [List.nil_append, List.flatMap_singleton, Chunk.body_sub hEnds, List.flatMap_cons,
          List.drop_append_of_le_length (by omega), List.take_append_of_le_length (by rw [List.length_drop]; omega)]
      · -- it starts behind this chunk
        have hDrop : ((c :: todo).flatMap Chunk.body).drop start = (todo.flatMap Chunk.body).drop (start - c.size) := by
          rw [List.flatMap_cons, List.drop_append, List.drop_eq_nil_of_le (by omega), List.nil_append, hBody]
        have hStop : start + length - c.size = start - c.size + length := by omega
        rw [List.nil_append, List.tail_cons, hDrop, ih, emptyInside_cons_of_le hBefore, hStop]
      · -- it starts in this chunk and goes on behind it
        have hKept : (c.sub start (c.size - start)).body = c.body.drop start := by
          rw [Chunk.body_sub (by omega), List.take_of_length_le (by simp)]
        have hKeptSize : (c.sub start (c.size - start)).size = c.size - start := size_sub (by omega)
        have hTake : (((c :: todo).flatMap Chunk.body).drop start).take length =
            c.body.drop start ++ (todo.flatMap Chunk.body).take (length - (c.size - start)) := by
          rw [List.flatMap_cons, List.drop_append_of_le_length (by omega), List.take_append, List.length_drop, hBody,
            List.take_of_length_le (by rw [List.length_drop]; omega)]
        have hLeft : 0 < length - (c.size - start) := by omega
        have hInside : EmptyInside (c :: todo) start (start + length) ↔
            ∃ front d back, todo = front ++ d :: back ∧ d.size = 0 ∧ chunksSize front < length - (c.size - start) := by
          rw [emptyInside_cons_of_lt (by omega)]
          constructor
          · rintro ⟨front, d, back, hTodo, hd, hLess⟩
            exact ⟨front, d, back, hTodo, hd, by omega⟩
          · rintro ⟨front, d, back, hTodo, hd, hLess⟩
            exact ⟨front, d, back, hTodo, hd, by omega⟩
        rw [List.nil_append, hTake, hInside]
        constructor
        · intro hSame hEmpty
          have hLost : chunksSize (restrictLoop [c.sub start (c.size - start)] todo 0 (length - (c.size - start))) < _ :=
            restrictLoop_lost (by omega) hEmpty
          have hLengths := congrArg List.length hSame
          rw [chunksSize_cons, chunksSize_nil, hKeptSize] at hLost
          rw [chunksSize_eq_length, List.length_append, List.length_drop, List.length_take, chunksSize_eq_length,
            hBody] at hLengths
          omega
        · intro hNone
          rw [bytes_restrictLoop_kept hLeft hNone, List.flatMap_singleton, hKept]

end Loop

/-! `restrict` computes with `size_t`: an end of the range from 2^64 on wraps. -/

/-- The loop of `restrict` on numbers of 64 bits. A chunk is cut to the whole rest of a range whose end
has wrapped, which is more than the chunk holds. -/
def restrictSizedLoop : List Chunk → List Chunk → UInt64 → UInt64 → Outcome (List Chunk)
  | done, [], _, _ => .ok done
  | done, c :: todo, start, length =>
      if (start + length).toNat ≤ c.size then
        if c.size < start.toNat + length.toNat then throw (.undefined .index)
        else .ok (done ++ [c.sub start.toNat length.toNat])
      else if c.size ≤ start.toNat then
        restrictSizedLoop (done ++ [c]).tail todo (start - .ofNat c.size) length
      else
        restrictSizedLoop (done ++ [c.sub start.toNat (c.size - start.toNat)]) todo 0 (length - (.ofNat c.size - start))

/-- `restrict` with its arguments as `size_t`. -/
def restrictSized (s : SharedSpan) (start length : UInt64) : Outcome SharedSpan := do
  let chunks ← restrictSizedLoop [] s.chunks start length
  return ⟨chunks, s.signalType⟩

section Sized

variable {done todo : List Chunk} {c : Chunk} {start length : UInt64}

theorem size_toNat (c : Chunk) : (UInt64.ofNat c.size).toNat = c.size :=
  UInt64.toNat_ofNat_of_lt' (lt_trans c.size_lt (by decide))

theorem sub_size_toNat (h : c.size ≤ start.toNat) : (start - .ofNat c.size).toNat = start.toNat - c.size := by
  rw [UInt64.toNat_sub_of_le _ _ (by rw [UInt64.le_iff_toNat_le, size_toNat]; exact h), size_toNat]

/-- A range whose end does not wrap is cut as `restrict` is modelled on natural numbers. -/
theorem restrictSizedLoop_eq (h : start.toNat + length.toNat < 2 ^ 64) :
    restrictSizedLoop done todo start length = .ok (restrictLoop done todo start.toNat length.toNat) := by
  induction todo generalizing done start length with
  | nil => rw [restrictSizedLoop, restrictLoop]
  | cons c todo ih =>
      have hEnd : (start + length).toNat = start.toNat + length.toNat := by
        rw [UInt64.toNat_add, Nat.mod_eq_of_lt h]
      rw [restrictSizedLoop, restrictLoop, hEnd]
      split_ifs with hEnds hPast hBefore
      · omega
      · rfl
      · have hStart := sub_size_toNat hBefore
        rw [ih (by omega), hStart]
      · have hKept : (UInt64.ofNat c.size - start).toNat = c.size - start.toNat := by
          rw [UInt64.toNat_sub_of_le _ _ (by rw [UInt64.le_iff_toNat_le, size_toNat]; omega), size_toNat]
        have hLength : (length - (UInt64.ofNat c.size - start)).toNat = length.toNat - (c.size - start.toNat) := by
          rw [UInt64.toNat_sub_of_le _ _ (by rw [UInt64.le_iff_toNat_le, hKept]; omega), hKept]
        rw [ih (by rw [hLength]; simp; omega), hLength]
        rfl

/-- With an end that wraps the loop drops all chunks, or comes to a chunk that it cuts to more than it has. -/
theorem restrictSizedLoop_wrapped (h : 2 ^ 64 ≤ start.toNat + length.toNat) :
    restrictSizedLoop [] todo start length =
      if todo = [] ∨ chunksSize todo < start.toNat + length.toNat - 2 ^ 64 then .ok []
      else throw (.undefined .index) := by
  have hLength := length.toNat_lt
  induction todo generalizing start with
  | nil => simp [restrictSizedLoop]
  | cons c todo ih =>
      have hStart := start.toNat_lt
      have hSize : c.size < 1200 := c.size_lt
      have hEnd : (start + length).toNat = start.toNat + length.toNat - 2 ^ 64 := by
        rw [UInt64.toNat_add]
        omega
      rw [restrictSizedLoop, hEnd]
      by_cases hReached : start.toNat + length.toNat - 2 ^ 64 ≤ c.size
      · have hAll : ¬(c :: todo = [] ∨ chunksSize (c :: todo) < start.toNat + length.toNat - 2 ^ 64) := by
          rw [chunksSize_cons]
          simp only [reduceCtorEq, false_or]
          omega
        rw [if_pos hReached, if_pos (by omega), if_neg hAll]
      · have hBefore : c.size ≤ start.toNat := by omega
        have hRest := sub_size_toNat hBefore
        have hSame : (todo = [] ∨ chunksSize todo < start.toNat - c.size + length.toNat - 2 ^ 64) ↔
            (c :: todo = [] ∨ chunksSize (c :: todo) < start.toNat + length.toNat - 2 ^ 64) := by
          cases todo with
          | nil => simp; omega
          | cons d todo =>
              simp only [reduceCtorEq, false_or, chunksSize_cons]
              omega
        rw [if_neg hReached, if_pos hBefore, List.nil_append, List.tail_cons, ih (by omega), hRest]
        simp only [hSame]

theorem restrictSized_eq {s : SharedSpan} (h : start.toNat + length.toNat < 2 ^ 64) :
    s.restrictSized start length = .ok (s.restrict start.toNat length.toNat) := by
  rw [restrictSized, restrictSizedLoop_eq h]
  rfl

theorem restrictSized_wrapped {s : SharedSpan} (h : 2 ^ 64 ≤ start.toNat + length.toNat) :
    s.restrictSized start length =
      if s.chunks = [] ∨ s.size < start.toNat + length.toNat - 2 ^ 64 then .ok ⟨[], s.signalType⟩
      else throw (.undefined .index) := by
  have hSize : chunksSize s.chunks = s.size := rfl
  rw [restrictSized, restrictSizedLoop_wrapped h, hSize]
  split_ifs <;> rfl

end Sized

/-- The bytes of `s.restrict({start, length})` are those of `s` from `start` up to the end of the range,
or of `s`. -/
def RestrictsTo (s : SharedSpan) (start length : UInt64) : Prop :=
  ∃ restricted, s.restrictSized start length = .ok restricted ∧
    restricted.bytes = s.bytes.extract start.toNat (min (start.toNat + length.toNat) s.size)

/-- The end of the range does not wrap, and no empty chunk is strictly inside; or the end wraps and is
still behind all chunks. -/
def Restrictable (s : SharedSpan) (start length : UInt64) : Prop :=
  (start.toNat + length.toNat < 2 ^ 64 ∧ ¬EmptyInside s.chunks start.toNat (start.toNat + length.toNat)) ∨
    (2 ^ 64 ≤ start.toNat + length.toNat ∧ (s.chunks = [] ∨ s.size < start.toNat + length.toNat - 2 ^ 64))

theorem extract_min_size (s : SharedSpan) (start length : ℕ) :
    s.bytes.extract start (min (start + length) s.size) = (s.bytes.drop start).take length := by
  have hSize := s.size_eq_bytes_length
  rw [List.extract_eq_take_drop]
  apply List.take_eq_take_iff.mpr
  rw [List.length_drop]
  omega

theorem bytes_restrict_iff (s : SharedSpan) (start length : ℕ) :
    (s.restrict start length).bytes = (s.bytes.drop start).take length ↔ ¬EmptyInside s.chunks start (start + length) :=
  bytes_restrictLoop_iff

theorem restrictsTo_iff (s : SharedSpan) (start length : UInt64) : RestrictsTo s start length ↔ Restrictable s start length := by
  rw [RestrictsTo, Restrictable, extract_min_size]
  rcases Nat.lt_or_ge (start.toNat + length.toNat) (2 ^ 64) with hFits | hWraps
  · have hRestrict := s.bytes_restrict_iff start.toNat length.toNat
    simp only [restrictSized_eq hFits, Except.ok.injEq, exists_eq_left', hRestrict, hFits, true_and, Nat.not_le.mpr hFits,
      false_and, or_false]
  · have hStart := start.toNat_lt
    have hLength := length.toNat_lt
    have hSize : s.size = s.bytes.length := s.size_eq_bytes_length
    rw [restrictSized_wrapped hWraps]
    simp only [hWraps, Nat.not_lt.mpr hWraps, false_and, true_and, false_or]
    split_ifs with hBehind
    · have hNothing : s.bytes.drop start.toNat = [] := by
        rcases hBehind with hNone | hLess
        · simp [bytes, hNone]
        · exact List.drop_eq_nil_of_le (by omega)
      simp only [hBehind, iff_true, hNothing, List.take_nil]
      exact ⟨_, rfl, rfl⟩
    · simp only [hBehind, iff_false]
      rintro ⟨restricted, hRestricted, -⟩
      cases hRestricted

end SharedSpan

namespace TreeNode

theorem assign_bytes_iff (n : TreeNode) : n.assign.propertyData.bytes = n.propertyData.bytes ↔
    ¬SharedSpan.EmptyInside n.propertyData.chunks 0 n.propertyData.size := by
  have hRestrict := n.propertyData.bytes_restrict_iff 0 n.propertyData.size
  rwa [List.drop_zero, List.take_of_length_le (by rw [n.propertyData.size_eq_bytes_length]), Nat.zero_add] at hRestrict

end TreeNode

namespace SharedSpan

/-- `restrict` keeps the bytes of a range, and the assignment of a node its property data, exactly when
no empty chunk is strictly inside and the end of the range does not wrap. -/
theorem restricts_iff (s : SharedSpan) (start length : UInt64) (n : TreeNode) :
    (RestrictsTo s start length ↔ Restrictable s start length) ∧
      (n.assign.propertyData.bytes = n.propertyData.bytes ↔ ¬EmptyInside n.propertyData.chunks 0 n.propertyData.size) :=
  ⟨restrictsTo_iff s start length, TreeNode.assign_bytes_iff n⟩

/-- The data that are read from a file with an empty text and the text `x`. -/
def emptyThenText : SharedSpan :=
  concat [ofSignal (.payload ⟨0, 0x00, 8⟩) (leBytes 8 0), ofSignal (.payload ⟨0, 0x00, 0⟩) [],
    ofSignal (.payload ⟨0, 0x00, 8⟩) (leBytes 8 1), ofSignal (.payload ⟨0, 0x00, 1⟩) (str "x")]

theorem emptyInside_emptyThenText : EmptyInside emptyThenText.chunks 0 17 :=
  ⟨[Chunk.ofHeader (.payload ⟨0, 0x00, 8⟩) (leBytes 8 0)], Chunk.ofHeader (.payload ⟨0, 0x00, 0⟩) [],
    [Chunk.ofHeader (.payload ⟨0, 0x00, 8⟩) (leBytes 8 1), Chunk.ofHeader (.payload ⟨0, 0x00, 1⟩) (str "x")],
    by decide, by decide, by decide, by decide⟩

/-- Copying these data by `restrict` or by assignment loses the length of the empty text. -/
theorem not_restrictsTo_emptyThenText : ¬RestrictsTo emptyThenText 0 17 ∧
    ({ propertyData := emptyThenText } : TreeNode).assign.propertyData.bytes ≠ emptyThenText.bytes := by
  have hSize : emptyThenText.size = 17 := by decide
  constructor
  · rw [restrictsTo_iff]
    rintro (⟨-, hNone⟩ | ⟨hWraps, -⟩)
    · exact hNone emptyInside_emptyThenText
    · exact absurd hWraps (by decide)
  · intro hKept
    have hNone := (TreeNode.assign_bytes_iff { propertyData := emptyThenText }).mp hKept
    dsimp only at hNone
    rw [hSize] at hNone
    exact hNone emptyInside_emptyThenText

end SharedSpan

end Wwatp
